import EmpTool.Ir.Program
import EmpTool.Runtime.Error

namespace EmpTool.Session

open Ir

structure ChunkRecorderCtx where
  rc : UInt32 → Int := fun _ => 0
  nextId : UInt32 := 1
  chunkGates : List Gate := []
  pending : UInt32 → Bool := fun _ => false
  constWire : Bool → Option UInt32 := fun _ => none

namespace ChunkRecorderCtx

variable (c : ChunkRecorderCtx)

def pin (id : UInt32) : Except String ChunkRecorderCtx :=
  if id = 0 then pure c
  else do
    let n ← addInt (c.rc id) 1
    pure { c with rc := Function.update c.rc id n }

def unpin (id : UInt32) : Except String ChunkRecorderCtx :=
  if id = 0 then pure c
  else do
    let n ← addInt (c.rc id) (-1)
    pure { c with rc := Function.update c.rc id n }

def pinAll : List UInt32 → ChunkRecorderCtx → Except String ChunkRecorderCtx
  | [], c => pure c
  | id :: ids, c => c.pin id >>= pinAll ids

def unpinAll : List UInt32 → ChunkRecorderCtx → Except String ChunkRecorderCtx
  | [], c => pure c
  | id :: ids, c => c.unpin id >>= unpinAll ids

def allocId : Except String (UInt32 × ChunkRecorderCtx) := do
  expecting (c.nextId ≠ 0xFFFFFFFF) "ChunkRecorderCtx: recorder wire id overflow"
  pure (c.nextId, { c with rc := Function.update c.rc c.nextId 0, nextId := c.nextId + 1 })

def requireAllocated (a : UInt32) : Except String Unit :=
  expecting (a < c.nextId) "ChunkRecorderCtx: operand id was never allocated (corrupt wire)"

def append (g : Gate) : ChunkRecorderCtx :=
  { c with chunkGates := c.chunkGates ++ [g], pending := Function.update c.pending g.out true }

def publicBit (v : Bool) : Except String (UInt32 × ChunkRecorderCtx) :=
  match c.constWire v with
  | some o => pure (o, c)
  | none => do
      let (o, c) ← c.allocId
      let c := c.append ⟨0, 0, o, if v then .const1 else .const0⟩
      pure (o, { c with constWire := Function.update c.constWire v (some o) })

def record (a b : UInt32) (op : Op) : Except String (UInt32 × ChunkRecorderCtx) := do
  let (o, c) ← c.allocId
  pure (o, c.append ⟨a, b, o, op⟩)

def andGate (a b : UInt32) : Except String (UInt32 × ChunkRecorderCtx) := do
  c.requireAllocated a
  c.requireAllocated b
  c.record a b .and

def xorGate (a b : UInt32) : Except String (UInt32 × ChunkRecorderCtx) := do
  c.requireAllocated a
  c.requireAllocated b
  c.record a b .xor

def notGate (a : UInt32) : Except String (UInt32 × ChunkRecorderCtx) := do
  c.requireAllocated a
  c.record a 0 .not

def reserveIds : Nat → ChunkRecorderCtx → Except String (List UInt32 × ChunkRecorderCtx)
  | 0, c => pure ([], c)
  | n + 1, c => do
      let (id, c) ← c.allocId
      let (ids, c) ← reserveIds n c
      pure (id :: ids, c)

def isPending (id : UInt32) : Bool := c.pending id

def inScope (id : UInt32) : Bool := id < c.nextId && 0 < c.rc id

def livePendingIds : List UInt32 :=
  (c.chunkGates.filter fun g => c.inScope g.out).map Gate.out

def dropChunk : ChunkRecorderCtx :=
  { c with chunkGates := [], pending := fun _ => false, constWire := fun _ => none }

end ChunkRecorderCtx

end EmpTool.Session
