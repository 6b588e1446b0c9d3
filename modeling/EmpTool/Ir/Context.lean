import EmpTool.Ir.Program

namespace EmpTool.Ir

open StraightLine

structure BooleanContext (m : Type → Type) (Wire : Type) where
  publicBit : Bool → m Wire
  andGate : Wire → Wire → m Wire
  xorGate : Wire → Wire → m Wire
  notGate : Wire → m Wire

structure GateOps (Wire : Type) where
  publicBit : Bool → Wire
  andGate : Wire → Wire → Wire
  xorGate : Wire → Wire → Wire
  notGate : Wire → Wire

variable {m : Type → Type} {Wire : Type}

def GateOps.context [Monad m] (ops : GateOps Wire) : BooleanContext m Wire where
  publicBit v := pure (ops.publicBit v)
  andGate a b := pure (ops.andGate a b)
  xorGate a b := pure (ops.xorGate a b)
  notGate a := pure (ops.notGate a)

def clearCtx : GateOps UInt8 where
  publicBit v := if v then 1 else 0
  andGate a b := a &&& b
  xorGate a b := a ^^^ b
  notGate a := a ^^^ 1

namespace BooleanContext

variable (ctx : BooleanContext m Wire)

def gate (g : Gate) (e : UInt32 → Wire) : m Wire :=
  match g.op with
  | .and => ctx.andGate (e g.in0) (e g.in1)
  | .xor => ctx.xorGate (e g.in0) (e g.in1)
  | .not => ctx.notGate (e g.in0)
  | .const0 => ctx.publicBit false
  | .const1 => ctx.publicBit true

theorem gate_congr {g : Gate} {e e' : UInt32 → Wire} (h : ∀ w ∈ g.reads, e w = e' w) :
    ctx.gate g e = ctx.gate g e' := by
  rcases g with ⟨in0, in1, out, op⟩
  cases op <;> simp_all [gate, Gate.reads]

theorem gate_rename (loc : UInt32 → UInt32) (out : UInt32) (g : Gate) (e : UInt32 → Wire) :
    ctx.gate (g.rename loc out) e = ctx.gate g (e ∘ loc) := by
  rcases g with ⟨in0, in1, o, op⟩
  cases op <;> simp [gate, Gate.rename, Gate.isConst, Gate.isNot]

variable [Monad m]

def runGates : List Gate → (UInt32 → Wire) → m (UInt32 → Wire)
  | [], e => pure e
  | g :: gs, e => do
      let v ← ctx.gate g e
      runGates gs (Function.update e g.out v)

theorem runGates_congr [LawfulMonad m] {β : Type} (f : (UInt32 → Wire) → β) {gs : List Gate}
    {D : Set UInt32} {e e' : UInt32 → Wire} (hs : gateShape.Scoped D gs)
    (h : ∀ w ∈ D, e w = e' w)
    (hf : ∀ a b : UInt32 → Wire, (∀ w ∈ gateShape.defined D gs, a w = b w) → f a = f b) :
    f <$> ctx.runGates gs e = f <$> ctx.runGates gs e' := by
  induction gs generalizing D e e' with
  | nil =>
    simp only [runGates, map_pure]
    rw [hf e e' (by simpa using h)]
  | cons g gs ih =>
    simp only [runGates, map_bind]
    rw [ctx.gate_congr fun w hw => h w (hs.1 w hw)]
    refine bind_congr fun v => ih hs.2 ?_ ?_
    · intro w hw
      by_cases ho : w = g.out
      · simp [ho]
      · simp only [Function.update_of_ne ho]
        exact h w (hw.resolve_left ho)
    · rwa [Shape.defined_cons] at hf

end BooleanContext

def gateMachine (ops : GateOps Wire) : Machine Gate UInt32 Wire where
  toShape := gateShape
  value g e := ops.context (m := Id) |>.gate g e
  value_congr h := (ops.context (m := Id)).gate_congr h

@[simp] theorem gateMachine_toShape (ops : GateOps Wire) : (gateMachine ops).toShape = gateShape :=
  rfl

theorem gateMachine_rename (ops : GateOps Wire) (loc : UInt32 → UInt32) (out : UInt32) (g : Gate)
    (e : UInt32 → Wire) :
    (gateMachine ops).value (g.rename loc out) e = (gateMachine ops).value g (e ∘ loc) :=
  (ops.context (m := Id)).gate_rename loc out g e

theorem runGates_pure [Monad m] [LawfulMonad m] (ops : GateOps Wire) (gs : List Gate)
    (e : UInt32 → Wire) :
    (ops.context (m := m)).runGates gs e = pure ((gateMachine ops).run gs e) := by
  induction gs generalizing e with
  | nil => rfl
  | cons g gs ih =>
    have hg : ops.context.gate g e = (pure ((gateMachine ops).value g e) : m Wire) := by
      rcases g with ⟨in0, in1, out, op⟩
      cases op <;> rfl
    rw [BooleanContext.runGates, hg, pure_bind, ih]
    rfl

def inputEnv [Inhabited Wire] (inputs : List Wire) (w : UInt32) : Wire := inputs.getD w.toNat default

def BooleanProgram.evaluate [Inhabited Wire] (p : BooleanProgram) (ops : GateOps Wire)
    (inputs : List Wire) : List Wire :=
  p.outputs.map ((gateMachine ops).run p.gates (inputEnv inputs))

end EmpTool.Ir
