import EmpTool.Ir.Execute
import EmpTool.Ir.RecordCtx

namespace EmpTool.Frontend

open Ir

structure CircuitSignature where
  argWidths : List UInt32
  returnWidth : UInt32

def CircuitSignature.totalInputBits (s : CircuitSignature) : Nat :=
  (s.argWidths.map UInt32.toNat).sum % 2 ^ 64

structure CircuitArtifact where
  program : BooleanProgram
  signature : CircuitSignature

def validateArtifact (a : CircuitArtifact) : Except String Unit := do
  validateProgram a.program
  let ins := a.signature.totalInputBits
  expecting (ins ≤ 0xFFFFFFFF) "validate_artifact: total_input_bits exceeds UINT32_MAX"
  expecting (ins = a.program.numInputs.toNat)
    "validate_artifact: sum(arg_widths) != program.num_inputs"
  expecting (a.signature.returnWidth.toNat = a.program.outputs.length)
    "validate_artifact: return_width != program.outputs size"

structure Circuit where
  artifact : CircuitArtifact

def Circuit.construct (argWidths : List Nat) (retWidth : Nat) (a : CircuitArtifact) :
    Except String Circuit := do
  validateArtifact a
  let want := argWidths.map UInt32.ofNat
  expecting (a.signature.argWidths.length = argWidths.length)
    "Circuit: artifact signature arity != declared value types"
  expecting (∀ x ∈ a.signature.argWidths.zip want, x.1 = x.2)
    "Circuit: artifact argument width != declared value width"
  expecting (a.signature.returnWidth = UInt32.ofNat retWidth)
    "Circuit: artifact return width != declared value width"
  pure ⟨a⟩

inductive Ref where
  | arg (i j : Nat)
  | result (k : Nat)

inductive Call where
  | publicBit (v : Bool)
  | andGate (a b : Ref)
  | xorGate (a b : Ref)
  | notGate (a : Ref)

def Ref.InScope (widths : List Nat) (results : Nat) : Ref → Prop
  | .arg i j => j < widths.getD i 0
  | .result k => k < results

def Call.refs : Call → List Ref
  | .publicBit _ => []
  | .andGate a b | .xorGate a b => [a, b]
  | .notGate a => [a]

def CallsInScope (widths : List Nat) : Nat → List Call → Prop
  | _, [] => True
  | n, call :: calls =>
      (∀ r ∈ call.refs, r.InScope widths n) ∧ CallsInScope widths (n + 1) calls

instance (widths : List Nat) (results : Nat) : (r : Ref) → Decidable (r.InScope widths results)
  | .arg i j => inferInstanceAs (Decidable (j < widths.getD i 0))
  | .result k => inferInstanceAs (Decidable (k < results))

instance decidableCallsInScope (widths : List Nat) : (n : Nat) → (calls : List Call) →
    Decidable (CallsInScope widths n calls)
  | _, [] => isTrue trivial
  | n, call :: calls =>
    have : Decidable (CallsInScope widths (n + 1) calls) := decidableCallsInScope widths (n + 1) calls
    inferInstanceAs (Decidable ((∀ r ∈ call.refs, r.InScope widths n) ∧ _))

-- a return type's static `width()` is an `int`
structure Body (widths : List Nat) where
  calls : List Call
  returns : List Ref
  calls_in_scope : CallsInScope widths 0 calls
  returns_in_scope : ∀ r ∈ returns, r.InScope widths calls.length
  return_width : returns.length < 2 ^ 31

section Live

variable {m : Type → Type} {Wire : Type} [Inhabited Wire] (ctx : BooleanContext m Wire)

def Ref.get (args : List (List Wire)) (results : List Wire) : Ref → Wire
  | .arg i j => (args.getD i []).getD j default
  | .result k => results.getD k default

def Call.issue (args : List (List Wire)) (results : List Wire) : Call → m Wire
  | .publicBit v => ctx.publicBit v
  | .andGate a b => ctx.andGate (a.get args results) (b.get args results)
  | .xorGate a b => ctx.xorGate (a.get args results) (b.get args results)
  | .notGate a => ctx.notGate (a.get args results)

variable [Monad m]

def issueCalls (args : List (List Wire)) : List Call → List Wire → m (List Wire)
  | [], results => pure results
  | call :: calls, results => do
      let w ← call.issue ctx args results
      issueCalls args calls (results ++ [w])

def Body.apply {widths : List Nat} (body : Body widths) (args : List (List Wire)) :
    m (List Wire) := do
  let results ← issueCalls ctx args body.calls []
  pure (body.returns.map (Ref.get args results))

def run (c : Circuit) (args : List (List Wire)) : Except String (m (List Wire)) := do
  expecting (c.artifact.signature.argWidths.length = args.length)
    "frontend::run: argument count != circuit arity (stale artifact?)"
  let inputs := args.flatten
  expecting (UInt32.ofNat inputs.length = c.artifact.program.numInputs)
    "frontend::run: total argument width != circuit input count"
  executeProgram ctx c.artifact.program inputs

end Live

def makeRecArg (width : Nat) : RecordM (List UInt32) := do
  let base ← RecordCtx.externalInput width
  pure ((List.range width).map fun i => base + UInt32.ofNat i)

def makeRecArgs : List Nat → RecordM (List (List UInt32))
  | [] => pure []
  | width :: widths => do
      let arg ← makeRecArg width
      let args ← makeRecArgs widths
      pure (arg :: args)

def compile {widths : List Nat} (body : Body widths) : Except String Circuit := do
  let (args, rc) ← makeRecArgs widths {}
  let (ow, rc) ← body.apply RecordCtx.context args rc
  let (prog, _) ← RecordCtx.finish ow rc
  Circuit.construct widths body.returns.length
    ⟨prog, ⟨widths.map UInt32.ofNat, UInt32.ofNat body.returns.length⟩⟩

end EmpTool.Frontend
