import EmpTool.Library.StraightLine

namespace EmpTool.Ir

open StraightLine

theorem toNat_ofNat {k : Nat} (h : k < 2 ^ 32) : (UInt32.ofNat k).toNat = k :=
  UInt32.toNat_ofNat_of_lt' h

theorem toNat_succ {x : UInt32} (h : x.toNat + 1 < 2 ^ 32) : (x + 1).toNat = x.toNat + 1 := by
  rw [UInt32.toNat_add, UInt32.toNat_one]
  exact Nat.mod_eq_of_lt h

inductive Op where
  | and
  | xor
  | not
  | const0
  | const1
  deriving DecidableEq, Repr

structure Gate where
  in0 : UInt32 := 0
  in1 : UInt32 := 0
  out : UInt32 := 0
  op : Op := .and
  deriving DecidableEq, Repr

namespace Gate

def isAnd (g : Gate) : Bool := g.op = .and

def isXor (g : Gate) : Bool := g.op = .xor

def isNot (g : Gate) : Bool := g.op = .not

def isConst (g : Gate) : Bool := g.op = .const0 || g.op = .const1

def isLinear (g : Gate) : Bool := g.op = .xor || g.op = .not

def reads (g : Gate) : List UInt32 :=
  match g.op with
  | .and | .xor => [g.in0, g.in1]
  | .not => [g.in0]
  | .const0 | .const1 => []

theorem reads_of_const {g : Gate} (h : g.isConst = true) : g.reads = [] := by
  rcases g with ⟨in0, in1, out, op⟩
  cases op <;> simp_all [reads, isConst]

theorem reads_of_not {g : Gate} (h : g.isNot = true) : g.reads = [g.in0] := by
  rcases g with ⟨in0, in1, out, op⟩
  cases op <;> simp_all [reads, isNot]

theorem reads_of_binary {g : Gate} (hc : g.isConst = false) (hn : g.isNot = false) :
    g.reads = [g.in0, g.in1] := by
  rcases g with ⟨in0, in1, out, op⟩
  cases op <;> simp_all [reads, isConst, isNot]

def Canonical (g : Gate) : Prop :=
  match g.op with
  | .and | .xor => True
  | .not => g.in1 = 0
  | .const0 | .const1 => g.in0 = 0 ∧ g.in1 = 0

def rename (loc : UInt32 → UInt32) (out : UInt32) (g : Gate) : Gate where
  in0 := if g.isConst then 0 else loc g.in0
  in1 := if g.isConst || g.isNot then 0 else loc g.in1
  out := out
  op := g.op

@[simp] theorem rename_out (loc : UInt32 → UInt32) (out : UInt32) (g : Gate) :
    (g.rename loc out).out = out := rfl

@[simp] theorem rename_op (loc : UInt32 → UInt32) (out : UInt32) (g : Gate) :
    (g.rename loc out).op = g.op := rfl

theorem rename_reads (loc : UInt32 → UInt32) (out : UInt32) (g : Gate) :
    (g.rename loc out).reads = g.reads.map loc := by
  rcases g with ⟨in0, in1, o, op⟩
  cases op <;> simp [rename, reads, isConst, isNot]

theorem rename_canonical (loc : UInt32 → UInt32) (out : UInt32) (g : Gate) :
    (g.rename loc out).Canonical := by
  rcases g with ⟨in0, in1, o, op⟩
  cases op <;> simp [rename, Canonical, isConst, isNot]

theorem rename_congr {loc loc' : UInt32 → UInt32} {g : Gate} (h : ∀ w ∈ g.reads, loc w = loc' w)
    (out : UInt32) : g.rename loc out = g.rename loc' out := by
  rcases g with ⟨in0, in1, o, op⟩
  cases op <;> simp_all [rename, reads, isConst, isNot]

end Gate

def constGate (v : Bool) (o : UInt32) : Gate := ⟨0, 0, o, if v then .const1 else .const0⟩

inductive WireReuse where
  | none
  | linear
  | full
  deriving DecidableEq, Repr

structure BooleanProgram where
  numWires : UInt32 := 0
  numInputs : UInt32 := 0
  wireReuse : WireReuse := .none
  gates : List Gate := []
  outputs : List UInt32 := []
  deriving DecidableEq, Repr

namespace BooleanProgram

def totalInputBits (p : BooleanProgram) : UInt32 := p.numInputs

def totalOutputBits (p : BooleanProgram) : UInt32 := UInt32.ofNat p.outputs.length

def numGate (p : BooleanProgram) : UInt32 := UInt32.ofNat p.gates.length

def inputs (p : BooleanProgram) : Set UInt32 := {w | w < p.numInputs}

end BooleanProgram

def gateShape : Shape Gate UInt32 where
  reads := Gate.reads
  out := Gate.out

@[simp] theorem gateShape_reads (g : Gate) : gateShape.reads g = g.reads := rfl

@[simp] theorem gateShape_out (g : Gate) : gateShape.out g = g.out := rfl

end EmpTool.Ir
