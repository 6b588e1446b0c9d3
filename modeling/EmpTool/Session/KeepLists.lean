import EmpTool.Session.Plaintext

namespace EmpTool.Session

open Ir

structure InputBatch where
  owners : List Int := []
  bits : List (List Bool) := []
  ids : List (List UInt32) := []
  finished : Bool := false

inductive FullOp where
  | base (op : SessionOp)
  | revealKeep (value : List Nat) (recipient : Int) (keep : List (List Nat))
  | checkpointKeep (keep : List (List Nat))
  | runArtifact (prog : BooleanProgram) (args : List (List Nat)) (dsts : List Nat)
  | inputBatch (batch : Nat)
  | add (batch : Nat) (owner : Int) (dsts : List Nat) (bits : List Bool)
  | moveBatch (dst src : Nat)
  | finish (batch : Nat)
  | destroyBatch (batch : Nat)

structure FullSession where
  session : ChunkedSession := {}
  batches : Nat → Option InputBatch := fun _ => none

namespace ChunkedSession

variable (s : ChunkedSession)

def appendIds : List (List Nat) → ChunkedSession → Except String (List UInt32 × ChunkedSession)
  | [], s => pure ([], s)
  | value :: keep, s => do
      let (ids, s) ← s.valueIds value
      let (rest, s) ← appendIds keep s
      pure (ids ++ rest, s)

def revealKeep (backend : Backend) (value : List Nat) (recipient : Int) (keep : List (List Nat)) :
    Except String (Option (List Bool) × ChunkedSession) := do
  expecting (backend.recipientOk recipient = true) "invalid recipient"
  let keepIds := s.ctx.livePendingIds
  let (vids, s) ← s.valueIds value
  let (more, s) ← appendIds keep s
  let s ← s.flush (keepIds ++ vids ++ more)
  let bits ← s.decode backend vids recipient
  pure (if bits.length = value.length then some bits else none, s)

-- the keep list is the whole keep set here, and a value in scope outside it is pruned
def checkpointKeep (keep : List (List Nat)) : Except String ChunkedSession :=
  match keep with
  | [] => s.checkpoint
  | value :: keep => do
      let (keepIds, s) ← appendIds (value :: keep) s
      let s ← s.flush keepIds
      pure (s.pruneCarried fun id => id ∈ keepIds)

def runArtifact (prog : BooleanProgram) (args : List (List Nat)) (dsts : List Nat) :
    Except String ChunkedSession := do
  let (inIds, s) ← argIds args s
  expecting (UInt32.ofNat inIds.length = prog.numInputs)
    "ChunkedSession::run_artifact: total argument width != program num_inputs"
  expecting ((UInt32.ofNat dsts.length).toNat = prog.outputs.length)
    "ChunkedSession::run_artifact: RetV width != program output count"
  let (outIds, ctx) ← ChunkRecorderCtx.reserveIds prog.outputs.length s.ctx
  let s ← { s with ctx }.runProgramInto prog inIds outIds
  (s.countAnds prog).fromIds dsts outIds

end ChunkedSession

def droppedBatch : String := "ChunkedSession::input_batch: destroyed without finish() — " ++
  "inputs were reserved but never authenticated"

namespace FullSession

variable (s : FullSession)

def withSession (x : Except String ChunkedSession) :
    Except String (List (Option (List Bool)) × FullSession) := do
  let session ← x
  pure ([], { s with session })

def batch (b : Nat) : InputBatch := (s.batches b).getD {}

def add (b : Nat) (owner : Int) (dsts : List Nat) (bits : List Bool) :
    Except String FullSession := do
  expecting ((s.batch b).finished = false) "ChunkedSession::input_batch: add() after finish()"
  let (ids, ctx) ← ChunkRecorderCtx.reserveIds bits.length s.session.ctx
  let session ← { s.session with ctx }.fromIds dsts ids
  let batch := { s.batch b with
    owners := (s.batch b).owners ++ [owner]
    bits := (s.batch b).bits ++ [bits]
    ids := (s.batch b).ids ++ [ids] }
  pure { s with session, batches := Function.update s.batches b (some batch) }

def finish (b : Nat) : Except String FullSession := do
  expecting ((s.batch b).finished = false)
    "ChunkedSession::input_batch: finish() called twice"
  let batch := { s.batch b with finished := true }
  let session := s.session.authenticateInto batch.bits.flatten batch.ids.flatten
  pure { s with session, batches := Function.update s.batches b (some batch) }

def moveBatch (dst src : Nat) : FullSession :=
  let batches := Function.update s.batches dst (s.batches src)
  { s with batches := Function.update batches src (some { finished := true }) }

def destroyBatch (b : Nat) : Except String FullSession := do
  expecting ((s.batch b).finished = true ∨ (s.batch b).owners = [])
    droppedBatch
  pure { s with batches := Function.update s.batches b none }

def step (backend : Backend) : FullOp → Except String (List (Option (List Bool)) × FullSession)
  | .base op => do
      let (out, session) ← s.session.step backend op
      pure (out, { s with session })
  | .revealKeep value recipient keep => do
      let (out, session) ← s.session.revealKeep backend value recipient keep
      pure ([out], { s with session })
  | .checkpointKeep keep => s.withSession (s.session.checkpointKeep keep)
  | .runArtifact prog args dsts => s.withSession (s.session.runArtifact prog args dsts)
  | .inputBatch b => pure ([], { s with batches := Function.update s.batches b (some {}) })
  | .add b owner dsts bits => do
      let s ← s.add b owner dsts bits
      pure ([], s)
  | .moveBatch dst src => pure ([], s.moveBatch dst src)
  | .finish b => do
      let s ← s.finish b
      pure ([], s)
  | .destroyBatch b => do
      let s ← s.destroyBatch b
      pure ([], s)

def run (backend : Backend) : List FullOp → FullSession →
    Except String (List (Option (List Bool)) × FullSession)
  | [], s => pure ([], s)
  | op :: ops, s => do
      let (out, s) ← s.step backend op
      let (outs, s) ← run backend ops s
      pure (out ++ outs, s)

end FullSession

-- in the clear a value stays what it was computed to be, whatever is kept, pruned or still to be
-- authenticated; an operation on an object that does not exist has no meaning
structure FullPlain where
  wires : PlainState := fun _ => none
  batches : Nat → Bool := fun _ => false

def plainKeep (σ : PlainState) (keep : List (List Nat)) : Option Unit := do
  let _ ← keep.flatten.mapM σ
  pure ()

def fullPlainStep (backend : Backend) (σ : FullPlain) :
    FullOp → Option (List (Option (List Bool)) × FullPlain)
  | .base op => do
      let (out, wires) ← plainStep backend σ.wires op
      pure (out, { σ with wires })
  | .revealKeep value recipient keep => do
      plainKeep σ.wires keep
      let (out, wires) ← plainStep backend σ.wires (.reveal value recipient)
      pure (out, { σ with wires })
  | .checkpointKeep keep => do
      plainKeep σ.wires keep
      pure ([], σ)
  | .runArtifact prog args dsts => do
      let (out, wires) ← plainStep backend σ.wires (.run prog args dsts)
      pure (out, { σ with wires })
  | .inputBatch b =>
      if σ.batches b then none
      else pure ([], { σ with batches := Function.update σ.batches b true })
  | .add b _ dsts bits =>
      if σ.batches b then do
        let wires ← plainBuild σ.wires dsts bits
        pure ([], { σ with wires })
      else none
  | .moveBatch dst src =>
      if σ.batches src ∧ ¬ σ.batches dst then
        pure ([], { σ with batches := Function.update σ.batches dst true })
      else none
  | .finish b => if σ.batches b then pure ([], σ) else none
  | .destroyBatch b =>
      if σ.batches b then pure ([], { σ with batches := Function.update σ.batches b false })
      else none

def fullPlainRun (backend : Backend) : List FullOp → FullPlain →
    Option (List (Option (List Bool)) × FullPlain)
  | [], σ => pure ([], σ)
  | op :: ops, σ => do
      let (out, σ) ← fullPlainStep backend σ op
      let (outs, σ) ← fullPlainRun backend ops σ
      pure (out ++ outs, σ)

def sessionStops : List String :=
  ["ChunkRecorderCtx: recorder wire id overflow",
    "ChunkedSession: keep/reveal wire is stale",
    "ChunkedSession::flush: gate operand has no carried state (stale wire)",
    "ChunkedSession::run: argument is unflushed — checkpoint it first",
    "ChunkedSession::run_artifact: RetV width != program output count",
    "ChunkedSession::input_batch: add() after finish()",
    "ChunkedSession::input_batch: finish() called twice",
    droppedBatch,
    "invalid recipient",
    "signed int overflow"]

end EmpTool.Session
