import EmpTool.Ir.Context
import EmpTool.Ir.Validate

namespace EmpTool.Ir

structure RecordCtx where
  prog : BooleanProgram := {}
  nextId : UInt32 := 0
  numInputs : UInt32 := 0
  constWire : Bool → Option UInt32 := fun _ => none
  inputsClosed : Bool := false

abbrev RecordM := StateT RecordCtx (Except String)

namespace RecordCtx

def alloc : RecordM UInt32 := fun c => do
  expecting (c.nextId ≠ 0xFFFFFFFF) "RecordCtx: wire id overflow"
  pure (c.nextId, { c with inputsClosed := true, nextId := c.nextId + 1 })

def externalInput (n : Nat) : RecordM UInt32 := fun c => do
  expecting (c.inputsClosed = false) "RecordCtx::external_input: called after a gate was emitted"
  expecting (n ≠ 0) "RecordCtx::external_input: zero-width argument"
  expecting (n ≤ (0xFFFFFFFF - c.nextId).toNat) "RecordCtx::external_input: wire id overflow"
  expecting (n ≤ (0xFFFFFFFF - c.numInputs).toNat)
    "RecordCtx::external_input: num_inputs overflow"
  pure (c.nextId, { c with
    nextId := c.nextId + UInt32.ofNat n
    numInputs := c.numInputs + UInt32.ofNat n })

def pushGate (g : Gate) (c : RecordCtx) : RecordCtx :=
  { c with prog := { c.prog with gates := c.prog.gates ++ [g] } }

def publicBit (v : Bool) : RecordM UInt32 := fun c =>
  match c.constWire v with
  | some o => pure (o, c)
  | none => do
      let (o, c) ← alloc c
      let c := { c with constWire := Function.update c.constWire v (some o) }
      pure (o, c.pushGate ⟨0, 0, o, if v then .const1 else .const0⟩)

def record (a b : UInt32) (op : Op) : RecordM UInt32 := fun c => do
  let (o, c) ← alloc c
  pure (o, c.pushGate ⟨a, b, o, op⟩)

def andGate (a b : UInt32) : RecordM UInt32 := record a b .and

def xorGate (a b : UInt32) : RecordM UInt32 := record a b .xor

def notGate (a : UInt32) : RecordM UInt32 := record a 0 .not

def finish (outputs : List UInt32) : RecordM BooleanProgram := fun c => do
  let prog := { c.prog with numWires := c.nextId, numInputs := c.numInputs, outputs }
  validateProgram prog
  pure (prog, { c with prog })

def context : BooleanContext RecordM UInt32 := ⟨publicBit, andGate, xorGate, notGate⟩

end RecordCtx

end EmpTool.Ir
