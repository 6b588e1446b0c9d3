import EmpTool.Ir.Compose
import EmpTool.Ir.Dense

namespace EmpTool.Ir

open StraightLine

inductive ComposeOp where
  | externalInput (n : Nat)
  | publicBit (v : Bool)
  | andGate (a b : UInt32)
  | xorGate (a b : UInt32)
  | notGate (a : UInt32)
  | callUnit (unit : BooleanProgram) (ins : List UInt32)

namespace ComposeOp

def operands : ComposeOp → List UInt32
  | .externalInput _ | .publicBit _ => []
  | .andGate a b | .xorGate a b => [a, b]
  | .notGate a => [a]
  | .callUnit _ ins => ins

def units : ComposeOp → List BooleanProgram
  | .externalInput _ | .publicBit _ | .andGate _ _ | .xorGate _ _ | .notGate _ => []
  | .callUnit unit _ => [unit]

def record (c : ComposeCtx) : ComposeOp → Except String ComposeCtx
  | .externalInput n => Prod.snd <$> ComposeCtx.externalInput n c
  | .publicBit v => Prod.snd <$> ComposeCtx.publicBit v c
  | .andGate a b => Prod.snd <$> ComposeCtx.andGate a b c
  | .xorGate a b => Prod.snd <$> ComposeCtx.xorGate a b c
  | .notGate a => Prod.snd <$> ComposeCtx.notGate a c
  | .callUnit unit ins => Prod.snd <$> ComposeCtx.callUnit unit ins c

end ComposeOp

def recordOps : List ComposeOp → ComposeCtx → Except String ComposeCtx
  | [], c => pure c
  | op :: ops, c => do
      let c ← op.record c
      recordOps ops c

def OperandsProduced : List ComposeOp → ComposeCtx → Prop
  | [], _ => True
  | op :: ops, c => (∀ w ∈ op.operands, w < c.nextId) ∧
      ∀ c', op.record c = .ok c' → OperandsProduced ops c'

instance decidableOperandsProduced : (ops : List ComposeOp) → (c : ComposeCtx) →
    Decidable (OperandsProduced ops c)
  | [], _ => isTrue trivial
  | op :: ops, c =>
    have : ∀ c, Decidable (OperandsProduced ops c) := decidableOperandsProduced ops
    decidable_of_iff ((∀ w ∈ op.operands, w < c.nextId) ∧
        ∀ c' ∈ (op.record c).toOption, OperandsProduced ops c') (by
      refine and_congr_right fun _ => ?_
      cases op.record c with
      | error m => exact ⟨fun _ => nofun, fun _ => nofun⟩
      | ok r =>
        refine forall_congr' fun c' => imp_congr_left ?_
        rw [Except.ok.injEq]
        exact Option.some_inj)

section Semantics

variable {Wire : Type} [Inhabited Wire] (ops : GateOps Wire)

def evalEvent (plan : ComposePlan) (env : UInt32 → Wire) (ev : ComposeEvent) :
    Except String (UInt32 → Wire) :=
  if ev.inst < 0 then
    pure (Function.update env ev.gate.out (ops.context (m := Id) |>.gate ev.gate env))
  else do
    let inst := instanceAt plan.instances ev.inst
    let outs ← executeProgram (m := Id) ops.context inst.unit (inst.inIds.map env)
    pure (Table.write env inst.outIds outs)

def evalEvents (plan : ComposePlan) : List ComposeEvent → (UInt32 → Wire) →
    Except String (UInt32 → Wire)
  | [], env => pure env
  | ev :: evs, env => do
      let env ← evalEvent ops plan env ev
      evalEvents plan evs env

def evalPlan (plan : ComposePlan) (inputs : List Wire) : Except String (List Wire) := do
  let env ← evalEvents ops plan plan.events (inputEnv inputs)
  pure (plan.outputs.map env)

end Semantics

def flattenedGates (instances : List ComposeInstance) (ev : ComposeEvent) : Nat :=
  if ev.inst < 0 then 1 else (instanceAt instances ev.inst).unit.gates.length

def flattenedWires (plan : ComposePlan) : Nat :=
  plan.numInputs.toNat + (plan.events.map (flattenedGates plan.instances)).sum

section Emission

variable {Wire : Type} [Inhabited Wire] (ops : GateOps Wire) (inputs : List Wire)

def Flattener.program (s : Flattener) : BooleanProgram := { s.d with numWires := s.next }

structure Flattener.Holds (s : Flattener) (D : Set UInt32) (env : UInt32 → Wire) : Prop where
  dense : Dense s.program
  mapped : ∀ w ∈ D, s.map w < s.next
  values : ∀ w ∈ D, s.program.values ops inputs (s.map w) = env w

structure Flattener.Extends (s t : Flattener) : Prop where
  num_inputs : t.d.numInputs = s.d.numInputs
  next_le : s.next ≤ t.next
  values : ∀ x, x < s.next → t.program.values ops inputs x = s.program.values ops inputs x

variable {ops inputs} {s t u : Flattener} {D : Set UInt32} {env : UInt32 → Wire}

theorem Flattener.Extends.trans (h : s.Extends ops inputs t) (h' : t.Extends ops inputs u) :
    s.Extends ops inputs u :=
  ⟨h'.num_inputs.trans h.num_inputs, UInt32.le_trans h.next_le h'.next_le, fun x hx =>
    (h'.values x (UInt32.lt_of_lt_of_le hx h.next_le)).trans (h.values x hx)⟩

theorem Flattener.Holds.gate (h : s.Holds ops inputs D env) {g : Gate}
    (hroom : s.next.toNat + 1 < 2 ^ 32) (hr : ∀ w ∈ g.reads, w ∈ D) :
    (s.gate g).Holds ops inputs (insert g.out D) ((gateMachine ops).exec env g) ∧
      s.Extends ops inputs (s.gate g) := by
  have hnext : (s.next + 1).toNat = s.next.toNat + 1 := toNat_succ hroom
  have hself : s.next < s.next + 1 := by
    rw [UInt32.lt_iff_toNat_lt]
    omega
  have hemit : (s.gate g).program = s.program.emit (g.rename s.map s.next) := rfl
  have hvals := BooleanProgram.emit_values (p := s.program) (g := g.rename s.map s.next) rfl ops
    inputs
  rw [← hemit] at hvals
  have hreads : ∀ w ∈ (g.rename s.map s.next).reads, w < s.next := by
    rw [Gate.rename_reads, List.forall_mem_map]
    exact fun w hw => h.mapped w (hr w hw)
  refine ⟨⟨?_, ?_, ?_⟩, rfl, UInt32.le_of_lt hself, hvals.1⟩
  · rw [hemit]
    exact h.dense.emit hroom (Gate.rename_canonical _ _ _) rfl hreads
  · intro w hw
    simp only [Flattener.gate, Function.update_apply]
    split
    · exact hself
    · rename_i hne
      exact UInt32.lt_trans (h.mapped w (hw.resolve_left hne)) hself
  · intro w hw
    cases decEq w g.out with
    | isTrue heq =>
      rw [heq, show (gateMachine ops).exec env g g.out = _ from Machine.exec_out _ _ _]
      have hmap : (s.gate g).map g.out = s.next := Function.update_self _ _ _
      rw [hmap]
      refine hvals.2.trans ?_
      rw [gateMachine_rename]
      exact (gateMachine ops).value_congr fun w hw => h.values w (hr w hw)
    | isFalse hne =>
      have hmap : (s.gate g).map w = s.map w := Function.update_of_ne hne _ _
      have hw := hw.resolve_left hne
      rw [hmap, hvals.1 _ (h.mapped w hw), h.values w hw]
      exact (Machine.exec_of_ne _ hne).symm

theorem Flattener.Holds.gates {gs : List Gate} (h : s.Holds ops inputs D env)
    (hroom : s.next.toNat + gs.length < 2 ^ 32) (hs : gateShape.Scoped D gs) :
    (gs.foldl Flattener.gate s).Holds ops inputs (gateShape.defined D gs)
        ((gateMachine ops).run gs env) ∧
      s.Extends ops inputs (gs.foldl Flattener.gate s) ∧
      (gs.foldl Flattener.gate s).next.toNat = s.next.toNat + gs.length := by
  induction gs generalizing s D env with
  | nil => exact ⟨by simpa using h, ⟨rfl, UInt32.le_rfl, fun _ _ => rfl⟩, rfl⟩
  | cons g gs ih =>
    rw [List.length_cons] at hroom ⊢
    obtain ⟨hstep, hext⟩ := h.gate (by omega) hs.1
    have hnext : (s.gate g).next.toNat = s.next.toNat + 1 := toNat_succ (by omega)
    obtain ⟨hrest, hext', hlen⟩ := ih hstep (by omega) hs.2
    rw [Shape.defined_cons]
    exact ⟨hrest, hext.trans hext', by rw [List.foldl_cons, hlen]; omega⟩

structure InstanceOk (inst : ComposeInstance) (D : Set UInt32) : Prop where
  valid : Valid inst.unit
  ins_length : inst.inIds.length = inst.unit.numInputs.toNat
  outs_length : inst.outIds.length = inst.unit.outputs.length
  ins_mem : ∀ w ∈ inst.inIds, w ∈ D

theorem unitMap_input {inst : ComposeInstance} (hl : inst.inIds.length = inst.unit.numInputs.toNat)
    (cmap : UInt32 → UInt32) {w : UInt32} (hw : w < inst.unit.numInputs) :
    ∃ id, inst.inIds[w.toNat]? = some id ∧ unitMap cmap inst w = cmap id := by
  rw [UInt32.lt_iff_toNat_lt] at hw
  have hnodup : ((List.range inst.unit.numInputs.toNat).map UInt32.ofNat).Nodup := by
    refine List.Nodup.map_on (fun i hi j hj hij => ?_) List.nodup_range
    have hlt := inst.unit.numInputs.toNat_lt
    rw [List.mem_range] at hi hj
    rw [← toNat_ofNat (Nat.lt_trans hi hlt), hij, toNat_ofNat (Nat.lt_trans hj hlt)]
  have hlength : ((List.range inst.unit.numInputs.toNat).map UInt32.ofNat).length =
      (inst.inIds.map cmap).length := by simp [hl]
  have hcell := congrArg (fun l => l[w.toNat]?)
    (Table.map_write (fun _ => 0xFFFFFFFF) hnodup hlength)
  obtain ⟨id, hid⟩ : ∃ id, inst.inIds[w.toNat]? = some id :=
    ⟨inst.inIds[w.toNat], List.getElem?_eq_getElem (by omega)⟩
  refine ⟨id, hid, ?_⟩
  simpa [hw, hid, unitMap] using hcell

theorem Flattener.Holds.call_start (h : s.Holds ops inputs D env) {inst : ComposeInstance}
    (ok : InstanceOk inst D) :
    Flattener.Holds ops inputs { s with map := unitMap s.map inst } inst.unit.inputs
      (inputEnv (inst.inIds.map env)) := by
  refine ⟨h.dense, fun w hw => ?_, fun w hw => ?_⟩
  · obtain ⟨id, hid, hmap⟩ := unitMap_input ok.ins_length s.map hw
    simp only [hmap]
    exact h.mapped id (ok.ins_mem id (List.mem_of_getElem? hid))
  · obtain ⟨id, hid, hmap⟩ := unitMap_input ok.ins_length s.map hw
    simp only [hmap]
    refine (h.values id (ok.ins_mem id (List.mem_of_getElem? hid))).trans ?_
    simp [inputEnv, hid]

theorem Flattener.Holds.call (h : s.Holds ops inputs D env) {inst : ComposeInstance}
    (ok : InstanceOk inst D) (hroom : s.next.toNat + inst.unit.gates.length < 2 ^ 32) :
    (s.call inst).Holds ops inputs {w | w ∈ D ∨ w ∈ inst.outIds}
        (Table.write env inst.outIds (inst.unit.evaluate ops (inst.inIds.map env))) ∧
      s.Extends ops inputs (s.call inst) ∧
      (s.call inst).next.toNat = s.next.toNat + inst.unit.gates.length := by
  obtain ⟨hrun, hext, hlen⟩ := (h.call_start ok).gates hroom ok.valid.well_scoped
  change (s.inline inst).Holds ops inputs _ _ at hrun
  have hmap (w : UInt32) : (s.call inst).map w =
      Table.write s.map inst.outIds (inst.unit.outputs.map (s.inline inst).map) w := rfl
  have hlength : inst.outIds.length = (inst.unit.outputs.map (s.inline inst).map).length := by
    simp [ok.outs_length]
  refine ⟨⟨hrun.dense, fun w hw => ?_, fun w hw => ?_⟩,
    ⟨hext.num_inputs, hext.next_le, hext.values⟩, hlen⟩
  · rw [hmap]
    cases List.instDecidableMemOfLawfulBEq w inst.outIds with
    | isTrue hin =>
      obtain ⟨o, ho, heq⟩ := List.mem_map.mp (Table.write_mem s.map hlength hin)
      rw [← heq]
      exact hrun.mapped o (ok.valid.outputs_defined o ho)
    | isFalse hn =>
      rw [Table.write_of_notMem hn]
      exact UInt32.lt_of_lt_of_le (h.mapped w (hw.resolve_right hn)) hext.next_le
  · have houts : (inst.unit.outputs.map (s.inline inst).map).map
        ((s.inline inst).program.values ops inputs) =
        inst.unit.evaluate ops (inst.inIds.map env) := by
      rw [List.map_map]
      exact List.map_congr_left fun o ho => hrun.values o (ok.valid.outputs_defined o ho)
    rw [hmap]
    refine (Table.comp_write _ _ _ _ w).trans ?_
    refine (congrArg (Table.write _ inst.outIds · w) houts).trans ?_
    refine Table.write_congr (by simp [BooleanProgram.evaluate, ok.outs_length]) fun hn => ?_
    have hw := hw.resolve_right hn
    exact (hext.values _ (h.mapped w hw)).trans (h.values w hw)

end Emission

inductive Composed (instances : List ComposeInstance) :
    Set UInt32 → List ComposeEvent → Set UInt32 → Prop
  | nil (D : Set UInt32) : Composed instances D [] D
  | glue {D D' : Set UInt32} {ev : ComposeEvent} {evs : List ComposeEvent} (hi : ev.inst < 0)
      (hr : ∀ w ∈ ev.gate.reads, w ∈ D) (h : Composed instances (insert ev.gate.out D) evs D') :
      Composed instances D (ev :: evs) D'
  | call {D D' : Set UInt32} {ev : ComposeEvent} {evs : List ComposeEvent} {inst : ComposeInstance}
      (hi : ¬ ev.inst < 0) (hinst : instances[ev.inst.toNat]? = some inst) (ok : InstanceOk inst D)
      (h : Composed instances {w | w ∈ D ∨ w ∈ inst.outIds} evs D') :
      Composed instances D (ev :: evs) D'

theorem instanceAt_eq {instances : List ComposeInstance} {i : Int} {inst : ComposeInstance}
    (h : instances[i.toNat]? = some inst) : instanceAt instances i = inst := by
  rw [instanceAt, List.getD_eq_getElem?_getD, h, Option.getD_some]

namespace Composed

variable {instances : List ComposeInstance} {D D' D'' : Set UInt32} {evs evs' : List ComposeEvent}

theorem append (h : Composed instances D evs D') (h' : Composed instances D' evs' D'') :
    Composed instances D (evs ++ evs') D'' := by
  induction h with
  | nil D => exact h'
  | glue hi hr _ ih => exact .glue hi hr (ih h')
  | call hi hinst ok _ ih => exact .call hi hinst ok (ih h')

theorem more_instances (h : Composed instances D evs D') (more : List ComposeInstance) :
    Composed (instances ++ more) D evs D' := by
  induction h with
  | nil D => exact .nil D
  | glue hi hr _ ih => exact .glue hi hr ih
  | call hi hinst ok _ ih =>
    refine .call hi ?_ ok ih
    rw [List.getElem?_append_left (List.getElem?_eq_some_iff.mp hinst).1]
    exact hinst

theorem flatten {plan : ComposePlan} (h : Composed plan.instances D evs D') {Wire : Type}
    [Inhabited Wire] {ops : GateOps Wire} {inputs : List Wire} {s : Flattener} {env : UInt32 → Wire}
    (hs : s.Holds ops inputs D env)
    (hroom : s.next.toNat + (evs.map (flattenedGates plan.instances)).sum < 2 ^ 32) :
    ∃ env', evalEvents ops plan evs env = .ok env' ∧
      (evs.foldl (flattenEvent plan) s).Holds ops inputs D' env' ∧
      s.Extends ops inputs (evs.foldl (flattenEvent plan) s) := by
  induction h generalizing s env with
  | nil D => exact ⟨env, rfl, hs, rfl, UInt32.le_rfl, fun _ _ => rfl⟩
  | @glue D D' ev evs hi hr h ih =>
    have hsize : flattenedGates plan.instances ev = 1 := if_pos hi
    rw [List.map_cons, List.sum_cons, hsize] at hroom
    obtain ⟨hstep, hext⟩ := hs.gate (g := ev.gate) (by omega) hr
    have hnext : (s.gate ev.gate).next.toNat = s.next.toNat + 1 := toNat_succ (by omega)
    obtain ⟨env', heval, hrest, hext'⟩ := ih hstep (by omega)
    have hflat : flattenEvent plan s ev = s.gate ev.gate := if_pos hi
    have hev : evalEvent ops plan env ev = .ok ((gateMachine ops).exec env ev.gate) := if_pos hi
    rw [List.foldl_cons, hflat]
    exact ⟨env', bind_eq_ok.mpr ⟨_, hev, heval⟩, hrest, hext.trans hext'⟩
  | @call D D' ev evs inst hi hinst ok h ih =>
    have hat := instanceAt_eq hinst
    have hsize : flattenedGates plan.instances ev = inst.unit.gates.length := by
      rw [flattenedGates, if_neg hi, hat]
    rw [List.map_cons, List.sum_cons, hsize] at hroom
    obtain ⟨hstep, hext, hnext⟩ := hs.call ok (by omega)
    obtain ⟨env', heval, hrest, hext'⟩ := ih hstep (by omega)
    have hflat : flattenEvent plan s ev = s.call inst := by
      rw [flattenEvent, if_neg hi, hat]
    have hlen : (inst.inIds.map env).length = inst.unit.numInputs.toNat := by
      rw [List.length_map, ok.ins_length]
    have hexec := executeProgram_eq ok.valid ops hlen
    have hev : evalEvent ops plan env ev = .ok (Table.write env inst.outIds
        (inst.unit.evaluate ops (inst.inIds.map env))) := by
      rw [evalEvent, if_neg hi, hat]
      exact bind_eq_ok.mpr ⟨_, hexec, rfl⟩
    rw [List.foldl_cons, hflat]
    exact ⟨env', bind_eq_ok.mpr ⟨_, hev, heval⟩, hrest, hext.trans hext'⟩

end Composed

section Recorder

variable {c c' : ComposeCtx}

structure Composing (c : ComposeCtx) : Prop where
  composed : ∃ D, Composed c.plan.instances {w | w < c.numInputs} c.plan.events D ∧
    ∀ w, w < c.nextId → w ∈ D
  inputs_first : c.inputsClosed = false → c.plan.events = [] ∧ c.numInputs = c.nextId

theorem alloc_spec {o : UInt32} (h : ComposeCtx.alloc c = .ok (o, c')) :
    c' = { c with inputsClosed := true, nextId := c.nextId + 1 } ∧ o = c.nextId ∧
      ∀ w, w < c.nextId + 1 → w < c.nextId ∨ w = c.nextId := by
  simp only [ComposeCtx.alloc, bind_eq_ok, expecting_eq_ok, pure_eq_ok, Prod.mk.injEq] at h
  obtain ⟨_, hne, rfl, rfl⟩ := h
  refine ⟨rfl, rfl, fun w hw => ?_⟩
  have hlt := c.nextId.toNat_lt
  have hmax : c.nextId.toNat ≠ 0xFFFFFFFF := fun he => hne (UInt32.toNat_inj.mp he)
  rw [UInt32.lt_iff_toNat_lt, toNat_succ (by omega)] at hw
  rw [UInt32.lt_iff_toNat_lt, ← UInt32.toNat_inj]
  omega

theorem allocs_spec {n : Nat} {outs : List UInt32} (h : ComposeCtx.allocs n c = .ok (outs, c')) :
    c'.plan = c.plan ∧ c'.numInputs = c.numInputs ∧
      (c.inputsClosed = true → c'.inputsClosed = true) ∧ outs.length = n ∧
      ∀ w, w < c'.nextId → w < c.nextId ∨ w ∈ outs := by
  induction n generalizing c outs with
  | zero =>
    obtain ⟨rfl, rfl⟩ := Prod.mk.inj (Except.ok.inj h)
    exact ⟨rfl, rfl, id, rfl, fun w hw => Or.inl hw⟩
  | succ n ih =>
    obtain ⟨⟨o, c₁⟩, halloc, hrest⟩ := bind_eq_ok.mp h
    obtain ⟨⟨rest, c₂⟩, hallocs, hpure⟩ := bind_eq_ok.mp hrest
    obtain ⟨rfl, rfl⟩ := Prod.mk.inj (Except.ok.inj hpure)
    obtain ⟨rfl, rfl, hfirst⟩ := alloc_spec halloc
    obtain ⟨hplan, hin, hclosed, hlen, hmem⟩ := ih hallocs
    refine ⟨hplan, hin, fun _ => hclosed rfl, by rw [List.length_cons, hlen], fun w hw => ?_⟩
    rcases hmem w hw with hw | hw
    · rcases hfirst w hw with hw | hw
      · exact Or.inl hw
      · exact Or.inr (List.mem_cons.mpr (Or.inl hw))
    · exact Or.inr (List.mem_cons_of_mem _ hw)

theorem Composing.glue (h : Composing c) {g : Gate} (ho : g.out = c.nextId)
    (hr : ∀ w ∈ g.reads, w < c.nextId) (hnext : ∀ w, w < c.nextId + 1 → w < c.nextId ∨ w = c.nextId)
    (constWire : Bool → Option UInt32) :
    Composing ({ c with inputsClosed := true, nextId := c.nextId + 1, constWire }.emit g) := by
  obtain ⟨D, hD, hall⟩ := h.composed
  have neg_one_lt : (-1 : Int) < 0 := by decide
  refine ⟨⟨insert g.out D, hD.append (.glue neg_one_lt (fun w hw => hall w (hr w hw)) (.nil _)),
    fun w hw => ?_⟩, nofun⟩
  rcases hnext w hw with hw | hw
  · exact Set.mem_insert_of_mem _ (hall w hw)
  · exact Or.inl (hw.trans ho.symm)

theorem Composing.recordGate (h : Composing c) (a b : UInt32) (op : Op)
    (hr : ∀ w ∈ (⟨a, b, c.nextId, op⟩ : Gate).reads, w < c.nextId)
    (hrec : Prod.snd <$> ComposeCtx.record a b op c = .ok c') :
    Composing c' ∧ c'.plan.instances.length = c.plan.instances.length := by
  obtain ⟨⟨o, c₁⟩, hgate, rfl⟩ := map_eq_ok.mp hrec
  obtain ⟨⟨o, c₂⟩, halloc, hpure⟩ := bind_eq_ok.mp hgate
  obtain ⟨rfl, rfl, hnext⟩ := alloc_spec halloc
  obtain ⟨rfl, rfl⟩ := Prod.mk.inj (Except.ok.inj hpure)
  exact ⟨h.glue rfl hr hnext _, rfl⟩

theorem Composing.callUnit (h : Composing c) {unit : BooleanProgram} (hv : Valid unit)
    {ins outs : List UInt32} (hins : ∀ w ∈ ins, w < c.nextId)
    (hcount : c.plan.instances.length < 2 ^ 31)
    (hrec : ComposeCtx.callUnit unit ins c = .ok (outs, c')) :
    Composing c' ∧ c'.plan.instances.length = c.plan.instances.length + 1 := by
  simp only [ComposeCtx.callUnit, bind_eq_ok, expecting_eq_ok, pure_eq_ok, Prod.mk.injEq] at hrec
  obtain ⟨_, hlen, ⟨outs', c₁⟩, hallocs, rfl, rfl⟩ := hrec
  obtain ⟨hplan, hin, hclosed, hlen', hmem⟩ := allocs_spec hallocs
  obtain ⟨D, hD, hall⟩ := h.composed
  have hplan : c₁.plan = c.plan := hplan
  have hin : c₁.numInputs = c.numInputs := hin
  have hidx : Int.bmod c.plan.instances.length (2 ^ 32) = c.plan.instances.length := by
    rw [Int.bmod_eq_of_le] <;> omega
  refine ⟨⟨⟨{w | w ∈ D ∨ w ∈ outs'}, ?_, fun w hw => ?_⟩, ?_⟩, ?_⟩
  · simp only [hplan, hin, hidx]
    have hlast : (c.plan.instances ++ [⟨unit, ins, outs'⟩])[(c.plan.instances.length : Int).toNat]? =
        some ⟨unit, ins, outs'⟩ := by simp
    exact (hD.more_instances _).append (.call (Int.not_lt.mpr (Int.natCast_nonneg _)) hlast
      ⟨hv, hlen, hlen', fun w hw => hall w (hins w hw)⟩ (.nil _))
  · exact (hmem w hw).imp_left (hall w)
  · intro hopen
    simp [hclosed rfl] at hopen
  · simp [hplan]

theorem Composing.record (h : Composing c) {op : ComposeOp}
    (hv : ∀ unit ∈ op.units, Valid unit) (hr : ∀ w ∈ op.operands, w < c.nextId)
    (hcount : ∀ unit, op.units = [unit] → c.plan.instances.length < 2 ^ 31)
    (hrec : op.record c = .ok c') :
    Composing c' ∧ c'.plan.instances.length = c.plan.instances.length + op.units.length := by
  cases op with
  | externalInput n =>
    obtain ⟨⟨o, c₁⟩, hinput, rfl⟩ := map_eq_ok.mp hrec
    simp only [ComposeCtx.externalInput, bind_eq_ok, expecting_eq_ok, pure_eq_ok,
      Prod.mk.injEq] at hinput
    obtain ⟨_, hopen, _, -, _, -, -, rfl⟩ := hinput
    obtain ⟨hnil, heq⟩ := h.inputs_first hopen
    refine ⟨⟨⟨_, ?_, fun w hw => hw⟩, fun _ => ⟨hnil, by simp only [heq]⟩⟩, rfl⟩
    simp only [hnil, heq]
    exact .nil _
  | publicBit v =>
    obtain ⟨⟨o, c₁⟩, hbit, rfl⟩ := map_eq_ok.mp hrec
    unfold ComposeCtx.publicBit at hbit
    split at hbit
    · obtain ⟨rfl, rfl⟩ := Prod.mk.inj (Except.ok.inj hbit)
      exact ⟨h, rfl⟩
    · obtain ⟨⟨o, c₂⟩, halloc, hpure⟩ := bind_eq_ok.mp hbit
      obtain ⟨rfl, rfl, hnext⟩ := alloc_spec halloc
      obtain ⟨rfl, rfl⟩ := Prod.mk.inj (Except.ok.inj hpure)
      exact ⟨h.glue rfl (by cases v <;> exact List.forall_mem_nil _) hnext _, rfl⟩
  | andGate a b => exact h.recordGate a b .and hr hrec
  | xorGate a b => exact h.recordGate a b .xor hr hrec
  | notGate a => exact h.recordGate a 0 .not hr hrec
  | callUnit unit ins =>
    obtain ⟨⟨outs, c₁⟩, hcall, rfl⟩ := map_eq_ok.mp hrec
    exact h.callUnit (hv unit (List.mem_singleton.mpr rfl)) hr (hcount unit rfl) hcall

theorem Composing.recordOps (h : Composing c) {ops : List ComposeOp}
    (hv : ∀ unit ∈ ops.flatMap ComposeOp.units, Valid unit)
    (hcount : c.plan.instances.length + (ops.flatMap ComposeOp.units).length < 2 ^ 31)
    (hprod : OperandsProduced ops c) (hrec : Ir.recordOps ops c = .ok c') : Composing c' := by
  induction ops generalizing c with
  | nil => exact Except.ok.inj hrec ▸ h
  | cons op ops ih =>
    obtain ⟨c₁, hop, hrest⟩ := bind_eq_ok.mp hrec
    rw [List.flatMap_cons, List.forall_mem_append] at hv
    rw [List.flatMap_cons, List.length_append] at hcount
    obtain ⟨hstep, hlen⟩ := h.record hv.1 hprod.1 (fun unit hu => by
      rw [hu, List.length_singleton] at hcount
      omega) hop
    exact ih hstep hv.2 (by omega) (hprod.2 c₁ hop) hrest

theorem composing_start : Composing {} := by
  refine ⟨⟨_, .nil _, fun w hw => hw⟩, fun _ => ⟨rfl, rfl⟩⟩

end Recorder

theorem input_range (n : UInt32) (k : Nat) (hk : k < 2 ^ 32) :
    ∃ map, (List.range k).foldl Flattener.input { d := { numInputs := n } } =
      ⟨{ numInputs := n }, UInt32.ofNat k, map⟩ ∧ ∀ w : UInt32, w.toNat < k → map w = w := by
  induction k with
  | zero => exact ⟨_, rfl, nofun⟩
  | succ k ih =>
    obtain ⟨map, hmap, hid⟩ := ih (by omega)
    rw [List.range_succ, List.foldl_append, hmap]
    refine ⟨Function.update map (UInt32.ofNat k) (UInt32.ofNat k), ?_, fun w hw => ?_⟩
    · simp only [List.foldl_cons, List.foldl_nil, Flattener.input, UInt32.ofNat_add]
      rfl
    · rw [Function.update_apply]
      split
      · rename_i heq
        exact heq.symm
      · rename_i hne
        refine hid w ?_
        have hne : w.toNat ≠ k := fun he => hne (by rw [← he, UInt32.ofNat_toNat])
        omega

theorem inputs_hold {Wire : Type} [Inhabited Wire] (ops : GateOps Wire) (inputs : List Wire)
    (n : UInt32) :
    ((List.range n.toNat).foldl Flattener.input { d := { numInputs := n } }).Holds ops inputs
      {w | w < n} (inputEnv inputs) ∧
    ((List.range n.toNat).foldl Flattener.input { d := { numInputs := n } }).next = n ∧
    ((List.range n.toNat).foldl Flattener.input { d := { numInputs := n } }).d.numInputs = n := by
  obtain ⟨map, hmap, hid⟩ := input_range n n.toNat n.toNat_lt
  rw [hmap, UInt32.ofNat_toNat]
  refine ⟨⟨.start rfl rfl rfl, fun w hw => ?_, fun w hw => ?_⟩, rfl, rfl⟩
  · simp only [hid w (UInt32.lt_iff_toNat_lt.mp hw)]
    exact hw
  · simp only [hid w (UInt32.lt_iff_toNat_lt.mp hw)]
    rfl

def flattened (plan : ComposePlan) : Flattener :=
  plan.events.foldl (flattenEvent plan)
    ((List.range plan.numInputs.toNat).foldl Flattener.input { d := { numInputs := plan.numInputs } })

theorem Composed.flattened {plan : ComposePlan} {D : Set UInt32}
    (h : Composed plan.instances {w | w < plan.numInputs} plan.events D)
    (hroom : flattenedWires plan < 2 ^ 32) {Wire : Type} [Inhabited Wire] (ops : GateOps Wire)
    (inputs : List Wire) :
    (flattened plan).d.numInputs = plan.numInputs ∧
    ∃ env, evalEvents ops plan plan.events (inputEnv inputs) = .ok env ∧
      (flattened plan).Holds ops inputs D env := by
  obtain ⟨hstart, hnext, hin⟩ := inputs_hold ops inputs plan.numInputs
  obtain ⟨env, heval, hholds, hext⟩ := h.flatten hstart (by rw [hnext]; exact hroom)
  exact ⟨hext.num_inputs.trans hin, env, heval, hholds⟩

theorem flatten_compose_preserves_outputs {ops : List ComposeOp} {c : ComposeCtx}
    (hrec : recordOps ops {} = .ok c) (hprod : OperandsProduced ops {})
    (hunits : ∀ unit ∈ ops.flatMap ComposeOp.units, validateProgram unit = .ok ())
    (hcalls : (ops.flatMap ComposeOp.units).length < 2 ^ 31) {outputs : List UInt32}
    (hout : ∀ w ∈ outputs, w < c.nextId) (hwires : flattenedWires (c.finish outputs) < 2 ^ 32) :
    ∃ d, flattenCompose (c.finish outputs) = .ok d ∧ validateProgram d = .ok () ∧
      d.wireReuse = .none ∧
      ∀ {Wire : Type} [Inhabited Wire] (gateOps : GateOps Wire) (inputs : List Wire),
        inputs.length = c.numInputs.toNat → ∃ outs,
          evalPlan gateOps (c.finish outputs) inputs = .ok outs ∧
          executeProgram (m := Id) gateOps.context d inputs = .ok outs := by
  have composing := composing_start.recordOps
    (fun unit hu => validateProgram_ok_iff.mp (hunits unit hu)) (by simpa using hcalls) hprod hrec
  obtain ⟨D, hD, hall⟩ := composing.composed
  have hflat {Wire : Type} [Inhabited Wire] (gateOps : GateOps Wire) (inputs : List Wire) :=
    @Composed.flattened (c.finish outputs) D hD hwires Wire _ gateOps inputs
  obtain ⟨hin, start, -, holds⟩ := hflat clearCtx []
  have valid := (holds.dense.withOutputs (outputs.map (flattened (c.finish outputs)).map)).valid
    (List.forall_mem_map.mpr fun w hw => holds.mapped w (hall w (hout w hw)))
  have hvalid := validateProgram_ok_iff.mpr valid
  refine ⟨_, bind_eq_ok.mpr ⟨(), hvalid, rfl⟩, hvalid, holds.dense.mode, ?_⟩
  intro Wire _ gateOps inputs hlen
  obtain ⟨-, env, heval, hholds⟩ := hflat gateOps inputs
  refine ⟨outputs.map env, bind_eq_ok.mpr ⟨env, heval, rfl⟩, ?_⟩
  refine (executeProgram_eq valid gateOps (hlen.trans (congrArg UInt32.toNat hin.symm))).trans ?_
  refine congrArg Except.ok ((List.map_map ..).trans ?_)
  exact List.map_congr_left fun w hw => hholds.values w (hall w (hout w hw))

def composeOps : List ComposeOp :=
  [.externalInput 2, .callUnit reuseSample [0, 1], .publicBit true, .callUnit reuseSample [2, 3],
    .xorGate 4 0, .publicBit true, .notGate 3]

def composeSample : ComposeCtx := ((recordOps composeOps {}).toOption).getD {}

theorem flatten_compose_preserves_outputs_composeSample :
    ∃ d, flattenCompose (composeSample.finish [5, 2, 6, 5]) = .ok d ∧ validateProgram d = .ok () ∧
      d.wireReuse = .none ∧ ∃ outs,
        evalPlan clearCtx (composeSample.finish [5, 2, 6, 5]) [1, 1] = .ok outs ∧
        executeProgram (m := Id) clearCtx.context d [1, 1] = .ok outs := by
  have hout : ∀ w ∈ [5, 2, 6, 5], w < composeSample.nextId := by
    simp only [List.forall_mem_cons, List.not_mem_nil, false_imp_iff, implies_true, and_true]
    decide +kernel
  obtain ⟨d, hd, hv, hm, hrun⟩ := @flatten_compose_preserves_outputs composeOps composeSample rfl
    (by decide +kernel) (by decide +kernel) (by decide) [5, 2, 6, 5] hout (by decide +kernel)
  exact ⟨d, hd, hv, hm, hrun clearCtx [1, 1] rfl⟩

end EmpTool.Ir
