import EmpTool.Ir.Execute
import EmpTool.Library.Table

namespace EmpTool.Ir

structure ComposeInstance where
  unit : BooleanProgram := {}
  inIds : List UInt32 := []
  outIds : List UInt32 := []

structure ComposeEvent where
  gate : Gate := {}
  inst : Int := -1

structure ComposePlan where
  numInputs : UInt32 := 0
  numWires : UInt32 := 0
  events : List ComposeEvent := []
  instances : List ComposeInstance := []
  outputs : List UInt32 := []

structure ComposeCtx where
  plan : ComposePlan := {}
  nextId : UInt32 := 0
  numInputs : UInt32 := 0
  constWire : Bool → Option UInt32 := fun _ => none
  inputsClosed : Bool := false

abbrev ComposeM := StateT ComposeCtx (Except String)

namespace ComposeCtx

def alloc : ComposeM UInt32 := fun c => do
  expecting (c.nextId ≠ 0xFFFFFFFF) "ComposeCtx: wire id overflow"
  pure (c.nextId, { c with inputsClosed := true, nextId := c.nextId + 1 })

def externalInput (n : Nat) : ComposeM UInt32 := fun c => do
  expecting (c.inputsClosed = false)
    "ComposeCtx::external_input: called after a gate/call was emitted"
  expecting (n ≠ 0) "ComposeCtx::external_input: zero-width argument"
  expecting (n ≤ (0xFFFFFFFF - c.nextId).toNat) "ComposeCtx::external_input: wire id overflow"
  pure (c.nextId, { c with
    nextId := c.nextId + UInt32.ofNat n
    numInputs := c.numInputs + UInt32.ofNat n })

def emit (g : Gate) (c : ComposeCtx) : ComposeCtx :=
  { c with plan := { c.plan with events := c.plan.events ++ [⟨g, -1⟩] } }

def publicBit (v : Bool) : ComposeM UInt32 := fun c =>
  match c.constWire v with
  | some o => pure (o, c)
  | none => do
      let (o, c) ← alloc c
      let c := { c with constWire := Function.update c.constWire v (some o) }
      pure (o, c.emit ⟨0, 0, o, if v then .const1 else .const0⟩)

def record (a b : UInt32) (op : Op) : ComposeM UInt32 := fun c => do
  let (o, c) ← alloc c
  pure (o, c.emit ⟨a, b, o, op⟩)

def andGate (a b : UInt32) : ComposeM UInt32 := record a b .and

def xorGate (a b : UInt32) : ComposeM UInt32 := record a b .xor

def notGate (a : UInt32) : ComposeM UInt32 := record a 0 .not

def allocs : Nat → ComposeM (List UInt32)
  | 0 => pure []
  | n + 1 => do
      let o ← alloc
      let outs ← allocs n
      pure (o :: outs)

-- the index is narrowed to `int`, modulo 2^32
def callUnit (unit : BooleanProgram) (ins : List UInt32) : ComposeM (List UInt32) := fun c => do
  let c := { c with inputsClosed := true }
  expecting (ins.length = unit.numInputs.toNat)
    "ComposeCtx::call_unit: argument width != unit num_inputs"
  let (outs, c) ← allocs unit.outputs.length c
  let idx := Int.bmod c.plan.instances.length (2 ^ 32)
  pure (outs, { c with plan := { c.plan with
    instances := c.plan.instances ++ [⟨unit, ins, outs⟩]
    events := c.plan.events ++ [⟨{}, idx⟩] } })

def finish (outputs : List UInt32) (c : ComposeCtx) : ComposePlan :=
  { c.plan with numInputs := c.numInputs, numWires := c.nextId, outputs }

end ComposeCtx

structure Flattener where
  d : BooleanProgram
  next : UInt32 := 0
  map : UInt32 → UInt32 := fun _ => 0xFFFFFFFF

def Flattener.input (s : Flattener) (c : Nat) : Flattener :=
  { s with map := Function.update s.map (UInt32.ofNat c) s.next, next := s.next + 1 }

def Flattener.gate (s : Flattener) (g : Gate) : Flattener where
  d := { s.d with gates := s.d.gates ++ [g.rename s.map s.next] }
  next := s.next + 1
  map := Function.update s.map g.out s.next

def unitMap (cmap : UInt32 → UInt32) (inst : ComposeInstance) : UInt32 → UInt32 :=
  Table.write (fun _ => 0xFFFFFFFF) ((List.range inst.unit.numInputs.toNat).map UInt32.ofNat)
    (inst.inIds.map cmap)

def Flattener.inline (s : Flattener) (inst : ComposeInstance) : Flattener :=
  inst.unit.gates.foldl Flattener.gate { s with map := unitMap s.map inst }

def Flattener.call (s : Flattener) (inst : ComposeInstance) : Flattener :=
  let u := s.inline inst
  { u with map := Table.write s.map inst.outIds (inst.unit.outputs.map u.map) }

def instanceAt (instances : List ComposeInstance) (inst : Int) : ComposeInstance :=
  instances.getD inst.toNat {}

def flattenEvent (plan : ComposePlan) (s : Flattener) (ev : ComposeEvent) : Flattener :=
  if ev.inst < 0 then s.gate ev.gate else s.call (instanceAt plan.instances ev.inst)

def flattenCompose (plan : ComposePlan) : Except String BooleanProgram := do
  let s := (List.range plan.numInputs.toNat).foldl Flattener.input
    { d := { numInputs := plan.numInputs } }
  let s := plan.events.foldl (flattenEvent plan) s
  let d := { s.d with numWires := s.next, outputs := plan.outputs.map s.map }
  validateProgram d
  pure d

end EmpTool.Ir
