import EmpTool.Ir.Execute
import EmpTool.Ir.Passes

namespace EmpTool.Ir

open StraightLine

variable {m : Type → Type} {Wire : Type}

structure BulkBooleanContext (m : Type → Type) (Wire : Type) extends BooleanContext m Wire where
  andMany : List Wire → List Wire → m (List Wire)

def GateOps.bulkContext [Monad m] (ops : GateOps Wire) : BulkBooleanContext m Wire where
  toBooleanContext := ops.context
  andMany as bs := pure (List.zipWith ops.andGate as bs)

-- a backend whose every and_many call issues one batch of And gates
def GateOps.observedContext [Monad m] (ops : GateOps Wire) (issue : List Wire × List Wire → m Unit) :
    BulkBooleanContext m Wire where
  toBooleanContext := ops.context
  andMany as bs := do
    issue (as, bs)
    pure (List.zipWith ops.andGate as bs)

abbrev BatchLog (Wire : Type) := List (List Wire × List Wire)

def GateOps.loggedContext (ops : GateOps Wire) : BulkBooleanContext (StateM (BatchLog Wire)) Wire :=
  ops.observedContext fun batch => modify (· ++ [batch])

def digestMix (h x : UInt64) : UInt64 := (h ^^^ x) * 1099511628211

def digestOp : Op → UInt64
  | .and => 0
  | .xor => 1
  | .not => 2
  | .const0 => 3
  | .const1 => 4

def digestGate (h : UInt64) (g : Gate) : UInt64 :=
  [digestOp g.op, g.in0.toUInt64, g.in1.toUInt64, g.out.toUInt64].foldl digestMix h

def digestProgram (p : BooleanProgram) : UInt64 :=
  p.gates.foldl digestGate ([0xE, p.numInputs.toUInt64].foldl digestMix 1469598103934665603)

structure ScheduledPlan where
  bucket : Int → List Nat
  depth : Int
  numInputs : UInt32
  numWires : UInt32
  numGates : Nat
  digest : UInt64

def makeScheduledPlan (p : BooleanProgram) : Except String ScheduledPlan := do
  let sched ← schedulePass p
  let level (gi : Nat) : Option Int := some (sched.wireLevel (p.gates.getD gi {}).out)
  pure { bucket := Table.group level (List.range p.gates.length)
         depth := sched.levels.depth
         numInputs := p.numInputs
         numWires := p.numWires
         numGates := p.gates.length
         digest := digestProgram p }

structure Replay (Wire : Type) where
  slots : Slots Wire
  ws : ProgramWorkspace Wire

section Execute

variable [Inhabited Wire]

def bucketGates (p : BooleanProgram) (bucket : List Nat) : List Gate :=
  bucket.map fun gi => p.gates.getD gi {}

def gatherAnd (s : Slots Wire) (ws : ProgramWorkspace Wire) (g : Gate) : ProgramWorkspace Wire :=
  if g.op = .and then
    { ws with
      ba := ws.ba ++ [s.get g.in0]
      bb := ws.bb ++ [s.get g.in1]
      bouts := ws.bouts ++ [g.out] }
  else ws

def scatter (bouts : List UInt32) (bo : List Wire) (s : Slots Wire) : Slots Wire :=
  (bouts.zip bo).foldl (fun s x => s.write x.1 x.2) s

variable [Monad m] (ctx : BulkBooleanContext m Wire)

def replayAnds (p : BooleanProgram) (bucket : List Nat) (r : Replay Wire) : m (Replay Wire) := do
  let ws := (bucketGates p bucket).foldl (gatherAnd r.slots)
    { r.ws with ba := [], bb := [], bouts := [] }
  if ws.ba.isEmpty then pure { r with ws }
  else do
    let bo ← ctx.andMany ws.ba ws.bb
    pure { slots := scatter ws.bouts bo r.slots, ws := { ws with bo } }

def replayLinear : List Gate → Slots Wire → m (Slots Wire)
  | [], s => pure s
  | g :: gs, s => do
      let s ← match g.op with
        | .and => pure s
        | .xor => s.write g.out <$> ctx.xorGate (s.get g.in0) (s.get g.in1)
        | .not => s.write g.out <$> ctx.notGate (s.get g.in0)
        | .const0 => s.write g.out <$> ctx.publicBit false
        | .const1 => s.write g.out <$> ctx.publicBit true
      replayLinear gs s

def replayLevel (p : BooleanProgram) (plan : ScheduledPlan) (r : Replay Wire) (lv : Int) :
    m (Replay Wire) := do
  let r ← replayAnds ctx p (plan.bucket lv) r
  let slots ← replayLinear ctx (bucketGates p (plan.bucket lv)) r.slots
  pure { r with slots }

-- the last `++lv` steps past `depth`
def levelLoop (depth : Int) : Except String (List Int) := do
  let stop ← addInt depth 1
  pure ((List.range stop.toNat).map Int.ofNat)

def scheduledExecuteProgramIn (debug : Bool) (p : BooleanProgram) (plan : ScheduledPlan)
    (inputs : List Wire) (ws : ProgramWorkspace Wire) :
    Except String (m (List Wire × ProgramWorkspace Wire)) := do
  requireDense p "scheduled_execute_program"
  expecting (inputs.length = p.numInputs.toNat)
    "scheduled_execute_program: input count != program num_inputs"
  expecting (plan.numInputs = p.numInputs ∧ plan.numWires = p.numWires ∧
      plan.numGates = p.gates.length)
    "scheduled_execute_program: plan does not match program (stale plan?)"
  expecting (debug = false ∨ plan.digest = digestProgram p)
    "scheduled_execute_program: plan digest mismatch (stale plan for a different program)"
  let levels ← levelLoop plan.depth
  let start : Replay Wire := { slots := Slots.start p inputs ws.scratch, ws }
  pure ((fun r =>
      let out := p.outputs.map r.slots.get
      (out, { r.ws with scratch := ⟨r.slots.wires⟩, out })) <$>
    levels.foldlM (replayLevel ctx p plan) start)

end Execute

end EmpTool.Ir
