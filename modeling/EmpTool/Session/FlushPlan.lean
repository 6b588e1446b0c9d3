import EmpTool.Ir.Program
import EmpTool.Library.Table
import EmpTool.Library.Worklist

namespace EmpTool.Session

open Ir

structure FlushPlan where
  prog : BooleanProgram := {}
  inputIds : List UInt32 := []
  outputIds : List UInt32 := []
  ok : Bool := true

def wireToGate (chunkGates : List Gate) : UInt32 → Option Nat := Table.index Gate.out chunkGates

def pushOperands (g : Gate) : List UInt32 :=
  if g.isConst then []
  else g.in0 :: if g.isNot then [] else [g.in1]

-- every iteration pops one id and each gate pushes at most two, once
def neededTable (chunkGates : List Gate) (keepIds : List UInt32) : Nat → Bool :=
  let roots := keepIds.filter fun id => (wireToGate chunkGates id).isSome
  Worklist.search (wireToGate chunkGates) (fun gi => pushOperands (chunkGates.getD gi {}))
    (roots.length + 2 * chunkGates.length) roots.reverse fun _ => false

def neededGates (chunkGates : List Gate) (needed : Nat → Bool) : List Gate :=
  (chunkGates.zipIdx.filter fun x => needed x.2).map Prod.fst

structure InputScan where
  remap : UInt32 → Option UInt32 := fun _ => none
  inputIds : List UInt32 := []
  ok : Bool := true

def noteInput (toGate : UInt32 → Option Nat) (isMaterialized : UInt32 → Bool) (s : InputScan)
    (v : UInt32) : InputScan :=
  if (toGate v).isSome then s
  else if (s.remap v).isSome then s
  else if !isMaterialized v then { s with ok := false }
  else { s with
    remap := Function.update s.remap v (some (UInt32.ofNat s.inputIds.length))
    inputIds := s.inputIds ++ [v] }

def noteGate (toGate : UInt32 → Option Nat) (isMaterialized : UInt32 → Bool) (s : InputScan)
    (g : Gate) : InputScan :=
  if g.isConst then s
  else
    let s := noteInput toGate isMaterialized s g.in0
    if g.isNot then s else noteInput toGate isMaterialized s g.in1

structure Compaction where
  remap : UInt32 → Option UInt32
  cid : UInt32
  gates : List Gate := []

def compactNeeded (s : Compaction) (g : Gate) : Compaction :=
  let remap := Function.update s.remap g.out (some s.cid)
  { remap
    cid := s.cid + 1
    gates := s.gates ++ [g.rename (fun w => (remap w).getD 0) s.cid] }

def emitOutputs (toGate : UInt32 → Option Nat) : List UInt32 → List UInt32 → List UInt32
  | emitted, [] => emitted
  | emitted, id :: keepIds =>
      if (toGate id).isNone then emitOutputs toGate emitted keepIds
      else if id ∈ emitted then emitOutputs toGate emitted keepIds
      else emitOutputs toGate (emitted ++ [id]) keepIds

def planFlush (chunkGates : List Gate) (keepIds : List UInt32) (isMaterialized : UInt32 → Bool) :
    FlushPlan :=
  let toGate := wireToGate chunkGates
  let live := neededGates chunkGates (neededTable chunkGates keepIds)
  let scan := live.foldl (noteGate toGate isMaterialized) {}
  let numInputs := UInt32.ofNat scan.inputIds.length
  let compact := live.foldl compactNeeded { remap := scan.remap, cid := numInputs }
  let outputIds := emitOutputs toGate [] keepIds
  { prog := { numWires := compact.cid
              numInputs
              gates := compact.gates
              outputs := outputIds.map fun id => (compact.remap id).getD 0 }
    inputIds := scan.inputIds
    outputIds
    ok := scan.ok }

end EmpTool.Session
