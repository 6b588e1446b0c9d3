import EmpTool.Session.ChunkRecorder

namespace EmpTool.Session

open Ir

-- the recorder with its count table as the vector that it is
structure CountedCtx where
  rc : List Int := [0]
  nextId : UInt32 := 1
  chunkGates : List Gate := []
  pending : UInt32 → Bool := fun _ => false
  constWire : Bool → Option UInt32 := fun _ => none

def idOverflow : String := "ChunkRecorderCtx: recorder wire id overflow"

def idOutOfRange : String :=
  "ChunkRecorderCtx: wire id out of range for the active recorder " ++
    "(a value outlived its recorder?)"

namespace CountedCtx

variable (c : CountedCtx)

-- an index past the table fails the check under EMP_CONTEXT_CHECKS and is undefined without it:
-- neither build has a result
def adjust (d : Int) (id : UInt32) : Except String CountedCtx :=
  match c.rc[id.toNat]? with
  | none => .error idOutOfRange
  | some count => do
      let count ← addInt count d
      pure { c with rc := c.rc.set id.toNat count }

def pin (id : UInt32) : Except String CountedCtx := if id = 0 then pure c else c.adjust 1 id

def unpin (id : UInt32) : Except String CountedCtx := if id = 0 then pure c else c.adjust (-1) id

def allocId : Except String (UInt32 × CountedCtx) := do
  expecting (c.nextId ≠ 0xFFFFFFFF) idOverflow
  pure (c.nextId, { c with rc := c.rc ++ [0], nextId := c.nextId + 1 })

def requireAllocated (a : UInt32) : Except String Unit :=
  expecting (a < c.nextId) "ChunkRecorderCtx: operand id was never allocated (corrupt wire)"

def append (g : Gate) : CountedCtx :=
  { c with chunkGates := c.chunkGates ++ [g], pending := Function.update c.pending g.out true }

def publicBit (v : Bool) : Except String (UInt32 × CountedCtx) :=
  match c.constWire v with
  | some o => pure (o, c)
  | none => do
      let (o, c) ← c.allocId
      let c := c.append ⟨0, 0, o, if v then .const1 else .const0⟩
      pure (o, { c with constWire := Function.update c.constWire v (some o) })

def record (a b : UInt32) (op : Op) : Except String (UInt32 × CountedCtx) := do
  let (o, c) ← c.allocId
  pure (o, c.append ⟨a, b, o, op⟩)

def andGate (a b : UInt32) : Except String (UInt32 × CountedCtx) := do
  c.requireAllocated a
  c.requireAllocated b
  c.record a b .and

def xorGate (a b : UInt32) : Except String (UInt32 × CountedCtx) := do
  c.requireAllocated a
  c.requireAllocated b
  c.record a b .xor

def notGate (a : UInt32) : Except String (UInt32 × CountedCtx) := do
  c.requireAllocated a
  c.record a 0 .not

def reserveIds : Nat → CountedCtx → Except String (List UInt32 × CountedCtx)
  | 0, c => pure ([], c)
  | n + 1, c => do
      let (id, c) ← c.allocId
      let (ids, c) ← reserveIds n c
      pure (id :: ids, c)

def inScope (id : UInt32) : Bool :=
  match c.rc[id.toNat]? with
  | none => false
  | some count => 0 < count

def dropChunk : CountedCtx :=
  { c with chunkGates := [], pending := fun _ => false, constWire := fun _ => none }

end CountedCtx

-- the temporary that a gate call returns is an object of its own, named by `dst`
inductive WireOp where
  | null (dst : Nat)
  | construct (dst : Nat) (id : UInt32)
  | copy (dst src : Nat)
  | move (dst src : Nat)
  | copyAssign (dst src : Nat)
  | moveAssign (dst src : Nat)
  | destroy (wire : Nat)
  | publicBit (dst : Nat) (v : Bool)
  | andGate (dst a b : Nat)
  | xorGate (dst a b : Nat)
  | notGate (dst a : Nat)
  | reserveIds (n : Nat)
  | dropChunk
deriving DecidableEq, Repr

structure LiveWires where
  ctx : CountedCtx := {}
  wires : Nat → Option UInt32 := fun _ => none

namespace LiveWires

variable (s : LiveWires)

def id (wire : Nat) : UInt32 := (s.wires wire).getD 0

def construct (dst : Nat) (r : UInt32 × CountedCtx) : Except String LiveWires := do
  let ctx ← r.2.pin r.1
  pure { ctx, wires := Function.update s.wires dst (some r.1) }

def copy (dst src : Nat) : Except String LiveWires := s.construct dst (s.id src, s.ctx)

def move (dst src : Nat) : LiveWires :=
  { s with wires := Function.update (Function.update s.wires dst (some (s.id src))) src (some 0) }

def copyAssign (dst src : Nat) : Except String LiveWires :=
  if s.id dst ≠ s.id src then do
    let ctx ← s.ctx.unpin (s.id dst)
    let ctx ← ctx.pin (s.id src)
    pure { ctx, wires := Function.update s.wires dst (some (s.id src)) }
  else pure s

def moveAssign (dst src : Nat) : Except String LiveWires :=
  if dst ≠ src then do
    let ctx ← s.ctx.unpin (s.id dst)
    pure { s.move dst src with ctx }
  else pure s

def destroy (wire : Nat) : Except String LiveWires := do
  let ctx ← s.ctx.unpin (s.id wire)
  pure { ctx, wires := Function.update s.wires wire none }

def step : WireOp → Except String LiveWires
  | .null dst => pure { s with wires := Function.update s.wires dst (some 0) }
  | .construct dst id => s.construct dst (id, s.ctx)
  | .copy dst src => s.copy dst src
  | .move dst src => pure (s.move dst src)
  | .copyAssign dst src => s.copyAssign dst src
  | .moveAssign dst src => s.moveAssign dst src
  | .destroy wire => s.destroy wire
  | .publicBit dst v => s.ctx.publicBit v >>= s.construct dst
  | .andGate dst a b => s.ctx.andGate (s.id a) (s.id b) >>= s.construct dst
  | .xorGate dst a b => s.ctx.xorGate (s.id a) (s.id b) >>= s.construct dst
  | .notGate dst a => s.ctx.notGate (s.id a) >>= s.construct dst
  | .reserveIds n => do
      let (_, ctx) ← CountedCtx.reserveIds n s.ctx
      pure { s with ctx }
  | .dropChunk => pure { s with ctx := s.ctx.dropChunk }

def runOps : List WireOp → LiveWires → Except String LiveWires
  | [], s => pure s
  | op :: ops, s => s.step op >>= runOps ops

-- an object is constructed where none lives, and used or destroyed while it lives; an explicit
-- construction takes the null id or an allocated one
def Permitted : WireOp → Prop
  | .null dst => s.wires dst = none
  | .construct dst id => s.wires dst = none ∧ id < s.ctx.nextId
  | .copy dst src | .move dst src => s.wires dst = none ∧ s.wires src ≠ none
  | .copyAssign dst src | .moveAssign dst src => s.wires dst ≠ none ∧ s.wires src ≠ none
  | .destroy wire => s.wires wire ≠ none
  | .publicBit dst _ => s.wires dst = none
  | .andGate dst a b | .xorGate dst a b =>
      s.wires dst = none ∧ s.wires a ≠ none ∧ s.wires b ≠ none
  | .notGate dst a => s.wires dst = none ∧ s.wires a ≠ none
  | .reserveIds _ | .dropChunk => True

def pinned : WireOp → Option UInt32
  | .construct _ id => some id
  | .copy _ src => some (s.id src)
  | .copyAssign dst src => if s.id dst ≠ s.id src then some (s.id src) else none
  | .publicBit _ v => s.ctx.constWire v
  | .null _ | .move _ _ | .moveAssign _ _ | .destroy _ | .andGate _ _ _ | .xorGate _ _ _
  | .notGate _ _ | .reserveIds _ | .dropChunk => none

def Along (P : LiveWires → WireOp → Prop) : List WireOp → LiveWires → Prop
  | [], _ => True
  | op :: ops, s => P s op ∧ ∀ s', s.step op = .ok s' → Along P ops s'

end LiveWires

end EmpTool.Session
