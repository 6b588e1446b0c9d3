import EmpTool.Ir.Schedule

namespace EmpTool.Ir

structure DigestCtx where
  digest : UInt64 := 1469598103934665603
  nextId : UInt32 := 0
  constWire : Bool → Option UInt32 := fun _ => none

abbrev DigestM := StateT DigestCtx (Except String)

namespace DigestCtx

def mix (xs : List UInt64) (d : DigestCtx) : DigestCtx :=
  { d with digest := xs.foldl digestMix d.digest }

def externalInput (n : Nat) : DigestM UInt32 := fun d => do
  expecting (n ≠ 0) "DigestCtx::external_input: zero-width argument"
  expecting (n ≤ (0xFFFFFFFF - d.nextId).toNat) "DigestCtx::external_input: wire id overflow"
  pure (d.nextId, { d with nextId := d.nextId + UInt32.ofNat n }.mix [0xE, UInt64.ofNat n])

def emit (op a b : UInt64) : DigestM UInt32 := fun d => do
  expecting (d.nextId ≠ 0xFFFFFFFF) "DigestCtx: wire id overflow"
  pure (d.nextId, { d with nextId := d.nextId + 1 }.mix [op, a, b, d.nextId.toUInt64])

def publicBit (v : Bool) : DigestM UInt32 := fun d =>
  match d.constWire v with
  | some o => pure (o, d)
  | none => do
      let (o, d) ← emit (3 + if v then 1 else 0) 0 0 d
      pure (o, { d with constWire := Function.update d.constWire v (some o) })

def andGate (a b : UInt32) : DigestM UInt32 := emit 0 a.toUInt64 b.toUInt64

def xorGate (a b : UInt32) : DigestM UInt32 := emit 1 a.toUInt64 b.toUInt64

def notGate (a : UInt32) : DigestM UInt32 := emit 2 a.toUInt64 0

def context : BooleanContext DigestM UInt32 := ⟨publicBit, andGate, xorGate, notGate⟩

end DigestCtx

structure CountCtx where
  ands : Nat := 0
  xors : Nat := 0
  nots : Nat := 0
  consts : Nat := 0
  seen : Bool → Bool := fun _ => false

namespace CountCtx

def publicBit (v : Bool) : StateM CountCtx UInt8 := fun k =>
  if k.seen v then (0, k)
  else (0, { k with seen := Function.update k.seen v true, consts := k.consts + 1 })

def andGate (_ _ : UInt8) : StateM CountCtx UInt8 := fun k => (0, { k with ands := k.ands + 1 })

def xorGate (_ _ : UInt8) : StateM CountCtx UInt8 := fun k => (0, { k with xors := k.xors + 1 })

def notGate (_ : UInt8) : StateM CountCtx UInt8 := fun k => (0, { k with nots := k.nots + 1 })

def context : BooleanContext (StateM CountCtx) UInt8 := ⟨publicBit, andGate, xorGate, notGate⟩

end CountCtx

end EmpTool.Ir
