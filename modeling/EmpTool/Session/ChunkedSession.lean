import EmpTool.Ir.Execute
import EmpTool.Session.ChunkRecorder
import EmpTool.Session.FlushPlan

namespace EmpTool.Session

open Ir

def bitOps : GateOps Bool where
  publicBit v := v
  andGate a b := a && b
  xorGate a b := a ^^ b
  notGate a := !a

structure Backend where
  party : Int
  recipientOk : Int → Bool

def Backend.receives (b : Backend) (recipient : Int) : Bool := recipient = 0 || recipient = b.party

inductive SessionOp where
  | publicBit (dst : Nat) (v : Bool)
  | andGate (dst a b : Nat)
  | xorGate (dst a b : Nat)
  | notGate (dst a : Nat)
  | copy (dst src : Nat)
  | move (dst src : Nat)
  | copyAssign (dst src : Nat)
  | moveAssign (dst src : Nat)
  | destroy (wire : Nat)
  | input (dsts : List Nat) (bits : List Bool)
  | reveal (value : List Nat) (recipient : Int)
  | checkpoint
  | run (prog : BooleanProgram) (args : List (List Nat)) (dsts : List Nat)

structure ChunkedSession where
  ctx : ChunkRecorderCtx := {}
  carried : UInt32 → Option Bool := fun _ => none
  numAnd : Nat := 0
  wires : Nat → Option UInt32 := fun _ => none

namespace ChunkedSession

variable (s : ChunkedSession)

def id (wire : Nat) : UInt32 := (s.wires wire).getD 0

def isMaterialized (id : UInt32) : Bool := (s.carried id).isSome

def construct (dst : Nat) (r : UInt32 × ChunkRecorderCtx) : Except String ChunkedSession := do
  let ctx ← r.2.pin r.1
  pure { s with ctx, wires := Function.update s.wires dst (some r.1) }

def copy (dst src : Nat) : Except String ChunkedSession := s.construct dst (s.id src, s.ctx)

def move (dst src : Nat) : ChunkedSession :=
  { s with wires := Function.update (Function.update s.wires dst (s.wires src)) src (some 0) }

def copyAssign (dst src : Nat) : Except String ChunkedSession :=
  if s.id dst ≠ s.id src then do
    let ctx ← s.ctx.unpin (s.id dst)
    let ctx ← ctx.pin (s.id src)
    pure { s with ctx, wires := Function.update s.wires dst (some (s.id src)) }
  else pure s

def moveAssign (dst src : Nat) : Except String ChunkedSession :=
  if dst ≠ src then do
    let ctx ← s.ctx.unpin (s.id dst)
    pure { s with
      ctx
      wires := Function.update (Function.update s.wires dst (some (s.id src))) src (some 0) }
  else pure s

def destroy (wire : Nat) : Except String ChunkedSession := do
  let ctx ← s.ctx.unpin (s.id wire)
  pure { s with ctx, wires := Function.update s.wires wire none }

-- the wires of the temporary buffer are pinned besides those of the value
def fromIds (dsts : List Nat) (ids : List UInt32) : Except String ChunkedSession := do
  let ctx ← ChunkRecorderCtx.pinAll ids s.ctx
  let ctx ← ChunkRecorderCtx.pinAll ids ctx
  let ctx ← ChunkRecorderCtx.unpinAll ids ctx
  pure { s with ctx, wires := Table.assign s.wires dsts ids }

def valueIds (value : List Nat) : Except String (List UInt32 × ChunkedSession) := do
  let ids := value.map s.id
  let ctx ← ChunkRecorderCtx.pinAll ids s.ctx
  let ctx ← ChunkRecorderCtx.unpinAll ids ctx
  pure (ids, { s with ctx })

def gather (ids : List UInt32) : Except String (List Bool) :=
  ids.mapM fun id => (s.carried id).elim (.error "ideal: wire is not carried") .ok

def authenticateInto (bits : List Bool) (ids : List UInt32) : ChunkedSession :=
  { s with carried := Table.assign s.carried ids bits }

def runProgramInto (prog : BooleanProgram) (inIds outIds : List UInt32) :
    Except String ChunkedSession := do
  let ins ← s.gather inIds
  let outs ← executeProgram (m := Id) bitOps.context prog ins
  pure { s with carried := Table.assign s.carried outIds outs }

def decode (backend : Backend) (ids : List UInt32) (recipient : Int) :
    Except String (List Bool) := do
  let bits ← s.gather ids
  pure (if backend.receives recipient then bits else [])

def pruneCarried (keep : UInt32 → Bool) : ChunkedSession :=
  { s with carried := fun id => if keep id then s.carried id else none }

def countAnds (prog : BooleanProgram) : ChunkedSession :=
  { s with numAnd := s.numAnd + (prog.gates.filter Gate.isAnd).length }

def flush (keepIds : List UInt32) : Except String ChunkedSession := do
  expecting (∀ id ∈ keepIds, (s.ctx.isPending id || s.isMaterialized id) = true)
    "ChunkedSession: keep/reveal wire is stale"
  if keepIds.any s.ctx.isPending then do
    let plan := planFlush s.ctx.chunkGates keepIds s.isMaterialized
    expecting (plan.ok = true)
      "ChunkedSession::flush: gate operand has no carried state (stale wire)"
    let s ← s.runProgramInto plan.prog plan.inputIds plan.outputIds
    let s := s.countAnds plan.prog
    pure { s with ctx := s.ctx.dropChunk }
  else pure { s with ctx := s.ctx.dropChunk }

def input (dsts : List Nat) (bits : List Bool) : Except String ChunkedSession := do
  let (ids, ctx) ← ChunkRecorderCtx.reserveIds bits.length s.ctx
  let s := { s with ctx }.authenticateInto bits ids
  s.fromIds dsts ids

def reveal (backend : Backend) (value : List Nat) (recipient : Int) :
    Except String (Option (List Bool) × ChunkedSession) := do
  expecting (backend.recipientOk recipient = true) "invalid recipient"
  let keepIds := s.ctx.livePendingIds
  let (vids, s) ← s.valueIds value
  let s ← s.flush (keepIds ++ vids)
  let bits ← s.decode backend vids recipient
  pure (if bits.length = value.length then some bits else none, s)

def checkpoint : Except String ChunkedSession := do
  let s ← s.flush s.ctx.livePendingIds
  pure (s.pruneCarried s.ctx.inScope)

def appendArgIds (value : List Nat) : Except String (List UInt32 × ChunkedSession) := do
  let (ids, s) ← s.valueIds value
  expecting (∀ id ∈ ids, s.isMaterialized id = true)
    "ChunkedSession::run: argument is unflushed — checkpoint it first"
  pure (ids, s)

def argIds : List (List Nat) → ChunkedSession → Except String (List UInt32 × ChunkedSession)
  | [], s => pure ([], s)
  | value :: args, s => do
      let (ids, s) ← s.appendArgIds value
      let (rest, s) ← argIds args s
      pure (ids ++ rest, s)

def run (prog : BooleanProgram) (args : List (List Nat)) (dsts : List Nat) :
    Except String ChunkedSession := do
  let (inIds, s) ← argIds args s
  expecting (UInt32.ofNat inIds.length = prog.numInputs)
    "ChunkedSession::run: total argument width != circuit input count"
  let (outIds, ctx) ← ChunkRecorderCtx.reserveIds prog.outputs.length s.ctx
  let s ← { s with ctx }.runProgramInto prog inIds outIds
  (s.countAnds prog).fromIds dsts outIds

def step (backend : Backend) : SessionOp → Except String (List (Option (List Bool)) × ChunkedSession)
  | .publicBit dst v => do
      let r ← s.ctx.publicBit v
      let s ← s.construct dst r
      pure ([], s)
  | .andGate dst a b => do
      let r ← s.ctx.andGate (s.id a) (s.id b)
      let s ← s.construct dst r
      pure ([], s)
  | .xorGate dst a b => do
      let r ← s.ctx.xorGate (s.id a) (s.id b)
      let s ← s.construct dst r
      pure ([], s)
  | .notGate dst a => do
      let r ← s.ctx.notGate (s.id a)
      let s ← s.construct dst r
      pure ([], s)
  | .copy dst src => do
      let s ← s.copy dst src
      pure ([], s)
  | .move dst src => pure ([], s.move dst src)
  | .copyAssign dst src => do
      let s ← s.copyAssign dst src
      pure ([], s)
  | .moveAssign dst src => do
      let s ← s.moveAssign dst src
      pure ([], s)
  | .destroy wire => do
      let s ← s.destroy wire
      pure ([], s)
  | .input dsts bits => do
      let s ← s.input dsts bits
      pure ([], s)
  | .reveal value recipient => do
      let (out, s) ← s.reveal backend value recipient
      pure ([out], s)
  | .checkpoint => do
      let s ← s.checkpoint
      pure ([], s)
  | .run prog args dsts => do
      let s ← s.run prog args dsts
      pure ([], s)

def runOps (backend : Backend) : List SessionOp → ChunkedSession →
    Except String (List (Option (List Bool)) × ChunkedSession)
  | [], s => pure ([], s)
  | op :: ops, s => do
      let (out, s) ← s.step backend op
      let (outs, s) ← runOps backend ops s
      pure (out ++ outs, s)

end ChunkedSession

end EmpTool.Session
