import EmpTool.Session.ChunkedSession

namespace EmpTool.Session

open Ir

abbrev PlainState := Nat → Option (Option Bool)

def plainBit (σ : PlainState) (wire : Nat) : Option Bool := (σ wire).join

def plainBuild (σ : PlainState) (dsts : List Nat) (bits : List Bool) : Option PlainState :=
  if dsts.length = bits.length ∧ dsts.Nodup ∧ ∀ d ∈ dsts, σ d = none then
    some (Table.assign σ dsts (bits.map some))
  else none

def plainRunProgram (prog : BooleanProgram) (bits : List Bool) : Option (List Bool) :=
  match validateProgram prog, executeProgram (m := Id) bitOps.context prog bits with
  | .ok _, .ok outs => some outs
  | _, _ => none

def plainStep (backend : Backend) (σ : PlainState) :
    SessionOp → Option (List (Option (List Bool)) × PlainState)
  | .publicBit dst v => do
      let σ ← plainBuild σ [dst] [v]
      pure ([], σ)
  | .andGate dst a b => do
      let x ← plainBit σ a
      let y ← plainBit σ b
      let σ ← plainBuild σ [dst] [x && y]
      pure ([], σ)
  | .xorGate dst a b => do
      let x ← plainBit σ a
      let y ← plainBit σ b
      let σ ← plainBuild σ [dst] [x ^^ y]
      pure ([], σ)
  | .notGate dst a => do
      let x ← plainBit σ a
      let σ ← plainBuild σ [dst] [!x]
      pure ([], σ)
  | .copy dst src => do
      let v ← σ src
      if σ dst = none then pure ([], Function.update σ dst (some v)) else none
  | .move dst src => do
      let v ← σ src
      if σ dst = none then
        pure ([], Function.update (Function.update σ dst (some v)) src (some none))
      else none
  | .copyAssign dst src => do
      let _ ← σ dst
      let v ← σ src
      pure ([], Function.update σ dst (some v))
  | .moveAssign dst src => do
      let _ ← σ dst
      let v ← σ src
      pure ([], if dst = src then σ
        else Function.update (Function.update σ dst (some v)) src (some none))
  | .destroy wire => do
      let _ ← σ wire
      pure ([], Function.update σ wire none)
  | .input dsts bits => do
      let σ ← plainBuild σ dsts bits
      pure ([], σ)
  | .reveal value recipient => do
      let bits ← value.mapM (plainBit σ)
      pure ([if backend.receives recipient || bits.isEmpty then some bits else none], σ)
  | .checkpoint => pure ([], σ)
  | .run prog args dsts => do
      let bits ← args.flatten.mapM (plainBit σ)
      let outs ← plainRunProgram prog bits
      let σ ← plainBuild σ dsts outs
      pure ([], σ)

def plainRun (backend : Backend) : List SessionOp → PlainState →
    Option (List (Option (List Bool)) × PlainState)
  | [], σ => pure ([], σ)
  | op :: ops, σ => do
      let (out, σ) ← plainStep backend σ op
      let (outs, σ) ← plainRun backend ops σ
      pure (out ++ outs, σ)

namespace ChunkedSession

variable (s : ChunkedSession)

def IdRoom (n : Nat) : Prop := s.ctx.nextId.toNat + n ≤ 2 ^ 32 - 1

def GateRoom : Prop := s.ctx.chunkGates.length + 1 < 2 ^ 31

def PinRoom (ids : List UInt32) : Prop := ∀ id ∈ ids, s.ctx.rc id + ids.count id < 2 ^ 31

def Within (backend : Backend) : SessionOp → Prop
  | .publicBit _ v => s.ctx.constWire v = none → s.IdRoom 1 ∧ s.GateRoom
  | .andGate _ _ _ | .xorGate _ _ _ | .notGate _ _ => s.IdRoom 1 ∧ s.GateRoom
  | .copy _ _ | .move _ _ | .copyAssign _ _ | .moveAssign _ _ | .destroy _ | .checkpoint => True
  | .input _ bits => s.IdRoom bits.length
  | .reveal _ recipient => backend.recipientOk recipient = true
  | .run prog args _ => s.IdRoom prog.outputs.length ∧
      ∀ wire ∈ args.flatten, s.isMaterialized (s.id wire) = true

-- pin is a bare `++rc_[id]` on an `int`
def Pinnable : SessionOp → Prop
  | .publicBit _ v => ∀ o, s.ctx.constWire v = some o → s.PinRoom [o]
  | .copy _ src => s.PinRoom [s.id src]
  | .copyAssign dst src => s.id dst ≠ s.id src → s.PinRoom [s.id src]
  | .reveal value _ => s.PinRoom (value.map s.id)
  | .run _ args _ => ∀ value ∈ args, s.PinRoom (value.map s.id)
  | .andGate _ _ _ | .xorGate _ _ _ | .notGate _ _ | .move _ _ | .moveAssign _ _ | .destroy _
  | .input _ _ | .checkpoint => True

def Along (P : ChunkedSession → SessionOp → Prop) (backend : Backend) :
    List SessionOp → ChunkedSession → Prop
  | [], _ => True
  | op :: ops, s => P s op ∧
      ∀ out s', s.step backend op = .ok (out, s') → Along P backend ops s'

theorem along_cons {P : ChunkedSession → SessionOp → Prop} {backend : Backend} {op : SessionOp}
    {ops : List SessionOp} {s : ChunkedSession} : Along P backend (op :: ops) s ↔
      P s op ∧ ∀ r ∈ (s.step backend op).toOption, Along P backend ops r.2 := by
  refine and_congr_right fun _ => ?_
  cases s.step backend op with
  | error m => exact ⟨fun _ => nofun, fun _ => nofun⟩
  | ok r =>
    constructor
    · intro h r' hr
      exact h r'.1 r'.2 (congrArg Except.ok (Option.some.inj hr))
    · intro h out s' hs
      exact h (out, s') (congrArg some (Except.ok.inj hs))

instance (n : Nat) : Decidable (s.IdRoom n) := inferInstanceAs (Decidable (_ ≤ _))

instance : Decidable s.GateRoom := inferInstanceAs (Decidable (_ < _))

instance (ids : List UInt32) : Decidable (s.PinRoom ids) :=
  inferInstanceAs (Decidable (∀ id ∈ ids, s.ctx.rc id + ids.count id < 2 ^ 31))

instance (backend : Backend) : (op : SessionOp) → Decidable (s.Within backend op)
  | .publicBit _ v =>
    inferInstanceAs (Decidable (s.ctx.constWire v = none → s.IdRoom 1 ∧ s.GateRoom))
  | .andGate _ _ _ | .xorGate _ _ _ | .notGate _ _ =>
    inferInstanceAs (Decidable (s.IdRoom 1 ∧ s.GateRoom))
  | .copy _ _ | .move _ _ | .copyAssign _ _ | .moveAssign _ _ | .destroy _ | .checkpoint =>
    inferInstanceAs (Decidable True)
  | .input _ bits => inferInstanceAs (Decidable (s.IdRoom bits.length))
  | .reveal _ recipient => inferInstanceAs (Decidable (backend.recipientOk recipient = true))
  | .run prog args _ => inferInstanceAs (Decidable (s.IdRoom prog.outputs.length ∧
      ∀ wire ∈ args.flatten, s.isMaterialized (s.id wire) = true))

instance : (op : SessionOp) → Decidable (s.Pinnable op)
  | .publicBit _ v => inferInstanceAs (Decidable (∀ o ∈ s.ctx.constWire v, s.PinRoom [o]))
  | .copy _ src => inferInstanceAs (Decidable (s.PinRoom [s.id src]))
  | .copyAssign dst src =>
    inferInstanceAs (Decidable (s.id dst ≠ s.id src → s.PinRoom [s.id src]))
  | .reveal value _ => inferInstanceAs (Decidable (s.PinRoom (value.map s.id)))
  | .run _ args _ => inferInstanceAs (Decidable (∀ value ∈ args, s.PinRoom (value.map s.id)))
  | .andGate _ _ _ | .xorGate _ _ _ | .notGate _ _ | .move _ _ | .moveAssign _ _ | .destroy _
  | .input _ _ | .checkpoint => inferInstanceAs (Decidable True)

instance decidableAlong (P : ChunkedSession → SessionOp → Prop) [∀ s op, Decidable (P s op)]
    (backend : Backend) : (ops : List SessionOp) → (s : ChunkedSession) →
      Decidable (Along P backend ops s)
  | [], _ => isTrue trivial
  | op :: ops, s =>
    have : ∀ s, Decidable (Along P backend ops s) := decidableAlong P backend ops
    decidable_of_iff (P s op ∧ ∀ r ∈ (s.step backend op).toOption, Along P backend ops r.2)
      along_cons.symm

end ChunkedSession

end EmpTool.Session
