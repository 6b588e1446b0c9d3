import EmpTool.Library.Codec
import EmpTool.Ir.Validate

namespace EmpTool.Ir

open Codec

def Op.code : Op → UInt8
  | .and => 0
  | .xor => 1
  | .not => 2
  | .const0 => 3
  | .const1 => 4

def Op.ofCode (c : UInt8) : Op :=
  if c = 0 then .and else if c = 1 then .xor else if c = 2 then .not
  else if c = 3 then .const0 else .const1

def WireReuse.code : WireReuse → UInt8
  | .none => 0
  | .linear => 1
  | .full => 2

def WireReuse.ofCode (c : UInt8) : WireReuse :=
  if c = 0 then .none else if c = 1 then .linear else .full

namespace Empbc

def magic : List UInt8 := [0x45, 0x4D, 0x50, 0x42]

def version : UInt16 := 1

def headerLen : Nat := 4 + 2 + 1 + 1 + 4 + 4 + 4 + 4

def putU8 (v : UInt8) : List UInt8 := [v]

def putU16 (v : UInt16) : List UInt8 := [(v &&& 0xFF).toUInt8, ((v >>> 8) &&& 0xFF).toUInt8]

def putU32 (v : UInt32) : List UInt8 :=
  (List.range 4).map fun i => ((v >>> UInt32.ofNat (8 * i)) &&& 0xFF).toUInt8

def putIdx (iw : Nat) (v : UInt32) : List UInt8 := if iw = 2 then putU16 v.toUInt16 else putU32 v

def need (k : Nat) : Reader Unit := do
  let bs ← get
  StateT.lift (expecting (k ≤ bs.length) "empbc: truncated file")

def u8 : Reader UInt8 := do
  need 1
  let bs ← get
  set (bs.drop 1)
  pure (bs.getD 0 0)

def u16 : Reader UInt16 := do
  need 2
  let bs ← get
  set (bs.drop 2)
  pure ((bs.getD 0 0).toUInt16 ||| ((bs.getD 1 0).toUInt16 <<< 8))

def u32 : Reader UInt32 := do
  need 4
  let bs ← get
  set (bs.drop 4)
  pure ((bs.getD 0 0).toUInt32 ||| ((bs.getD 1 0).toUInt32 <<< 8) |||
    ((bs.getD 2 0).toUInt32 <<< 16) ||| ((bs.getD 3 0).toUInt32 <<< 24))

def idx (iw : Nat) : Reader UInt32 := if iw = 2 then UInt16.toUInt32 <$> u16 else u32

def putGate (iw : Nat) (g : Gate) : List UInt8 :=
  putIdx iw g.in0 ++ putIdx iw g.in1 ++ putIdx iw g.out ++ putU8 g.op.code ++ putU8 0 ++
    if iw = 4 then putU8 0 ++ putU8 0 else []

def putHeader (iw : Nat) (p : BooleanProgram) : List UInt8 :=
  magic ++ putU16 version ++ putU8 (UInt8.ofNat iw) ++ putU8 p.wireReuse.code ++
    putU32 p.numWires ++ putU32 p.numInputs ++ putU32 (UInt32.ofNat p.outputs.length) ++
    putU32 (UInt32.ofNat p.gates.length)

def putProgram (iw : Nat) (p : BooleanProgram) : List UInt8 :=
  putHeader iw p ++ p.gates.flatMap (putGate iw) ++ p.outputs.flatMap (putIdx iw)

def readReserved (iw : Nat) : Reader Unit := do
  let _ ← u8
  if iw = 4 then do
    let _ ← u8
    let _ ← u8
    pure ()
  else pure ()

def readGate (iw : Nat) : Reader Gate := do
  let in0 ← idx iw
  let in1 ← idx iw
  let out ← idx iw
  let op ← u8
  StateT.lift (expecting (op ≤ Op.const1.code) "empbc: unknown op code")
  readReserved iw
  pure { in0, in1, out, op := .ofCode op }

def readMagic : List UInt8 → Reader Unit
  | [] => pure ()
  | m :: ms => do
      let b ← u8
      StateT.lift (expecting (b = m) "empbc: bad magic")
      readMagic ms

def readProgram (len : Nat) : Reader BooleanProgram := do
  readMagic magic
  let version' ← u16
  StateT.lift (expecting (version' = version) "empbc: unsupported version")
  let iw ← UInt8.toNat <$> u8
  StateT.lift (expecting (iw = 2 ∨ iw = 4) "empbc: bad index_width")
  let flags ← u8
  StateT.lift (expecting (flags &&& ~~~0x3 = 0) "empbc: unknown flags bits set")
  StateT.lift (expecting (flags &&& 0x3 ≠ 3) "empbc: reserved wire_reuse value")
  let numWires ← u32
  let numInputs ← u32
  let numOutputs ← u32
  let numGates ← u32
  let expect := headerLen + numGates.toNat * (4 * iw) + numOutputs.toNat * iw
  StateT.lift (expecting (expect = len) "empbc: declared sizes do not match file length")
  let gates ← many (readGate iw) numGates.toNat
  let outputs ← many (idx iw) numOutputs.toNat
  pure { numWires, numInputs, wireReuse := .ofCode (flags &&& 0x3), gates, outputs }

end Empbc

open Empbc

def saveEmpbc (p : BooleanProgram) : Except String (List UInt8) := do
  validateProgram p
  let iw := if p.numWires ≤ 0xFFFF then 2 else 4
  pure (putProgram iw p)

def loadEmpbc (bytes : List UInt8) : Except String BooleanProgram := do
  let (p, _) ← (readProgram bytes.length).run bytes
  validateProgram p
  pure p

end EmpTool.Ir
