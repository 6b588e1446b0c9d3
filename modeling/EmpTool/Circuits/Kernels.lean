import EmpTool.Ir.Context
import EmpTool.Library.Arrays
import EmpTool.Library.Binary

namespace EmpTool.Circuits

open Arrays Binary
open EmpTool.Ir (GateOps clearCtx)

structure PlainContext (Wire : Type) extends GateOps Wire where
  value : Wire → Bool
  value_publicBit : ∀ v, value (publicBit v) = v
  value_andGate : ∀ a b, value (andGate a b) = (value a && value b)
  value_xorGate : ∀ a b, value (xorGate a b) = (value a ^^ value b)
  value_notGate : ∀ a, value (notGate a) = !value a

attribute [simp] PlainContext.value_publicBit PlainContext.value_andGate
  PlainContext.value_xorGate PlainContext.value_notGate

def clearContext : PlainContext UInt8 where
  toGateOps := clearCtx
  value w := w.toNat.testBit 0
  value_publicBit v := by cases v <;> rfl
  value_andGate a b := by rw [clearCtx, UInt8.toNat_and, Nat.testBit_and]
  value_xorGate a b := by rw [clearCtx, UInt8.toNat_xor, Nat.testBit_xor]
  value_notGate a := by
    rw [clearCtx, UInt8.toNat_xor, Nat.testBit_xor]
    exact Bool.xor_true _

def PlainContext.num {Wire : Type} (c : PlainContext Wire) (n : Nat) (w : Nat → Wire) : Nat :=
  natOf n fun i => c.value (w i)

namespace Kernel

variable {Wire ν : Type} (c : GateOps Wire)

-- only ever evaluated as a constant expression, so no width overflows `1 << b`
def clog2CeilFrom (n b : Nat) : Nat := if 2 ^ b < n then clog2CeilFrom n (b + 1) else b
termination_by n - b
decreasing_by
  have := Nat.lt_two_pow_self (n := b)
  omega

def clog2Ceil (n : Nat) : Nat := clog2CeilFrom n 0

-- `1 << b` on a 32-bit `int`: bit 31 is the sign
def intBit (b : Nat) : Int := if b = 31 then -2 ^ 31 else 2 ^ b

-- `b` runs up to the width of `int`, from where the shift has no defined result
def bitsForFrom (n : Int) : (left : Nat) → Except String Nat
  | 0 => .error "shift count out of range"
  | left + 1 => if intBit (31 - left) ≤ n then bitsForFrom n left else .ok (31 - left)

def bitsFor (n : Int) : Except String Nat := bitsForFrom n 31

def orGate (a b : Wire) : Wire := c.xorGate (c.xorGate a b) (c.andGate a b)

variable [DecidableEq ν]

-- the loop shared by `add_full` and `sub_full`; the result is what is written to `*carryOut`
def carryChain (step : Wire → Wire → Wire → Wire × Wire) (last : Wire → Wire → Wire → Wire)
    (dest : Ptr ν) (carryOut : Bool) (op1 op2 : Ptr ν) (carryIn : Option Wire) (size : Nat)
    (m : Mem ν Wire) : Mem ν Wire × Option Wire :=
  match size with
  | 0 => (m, if carryOut then carryIn else none)
  | i + 1 =>
    let carry := carryIn.getD (c.publicBit false)
    if carryOut then
      let r := sweep step dest op1 op2 (i + 1) 0 carry m
      (r.1, some r.2)
    else
      let r := sweep step dest op1 op2 i 0 carry m
      (r.1.set dest i (last (r.1.get op1 i) (r.1.get op2 i) r.2), none)

def addStep (x y carry : Wire) : Wire × Wire :=
  let axc := c.xorGate x carry
  let bxc := c.xorGate y carry
  let t := c.andGate axc bxc
  (c.xorGate x bxc, c.xorGate carry t)

def addLast (x y carry : Wire) : Wire := c.xorGate (c.xorGate carry y) x

def addFull (dest : Ptr ν) (carryOut : Bool) (op1 op2 : Ptr ν) (carryIn : Option Wire)
    (size : Nat) (m : Mem ν Wire) : Mem ν Wire × Option Wire :=
  carryChain c (addStep c) (addLast c) dest carryOut op1 op2 carryIn size m

def subStep (x y borrow : Wire) : Wire × Wire :=
  let bxa := c.xorGate x y
  let bxc := c.xorGate borrow y
  let t := c.andGate bxa bxc
  (c.xorGate bxa borrow, c.xorGate borrow t)

def subLast (x y borrow : Wire) : Wire := c.xorGate (c.xorGate x y) borrow

def subFull (dest : Ptr ν) (borrowOut : Bool) (op1 op2 : Ptr ν) (borrowIn : Option Wire)
    (size : Nat) (m : Mem ν Wire) : Mem ν Wire × Option Wire :=
  carryChain c (subStep c) (subLast c) dest borrowOut op1 op2 borrowIn size m

def rippleAdd (a b out : Ptr ν) (n : Nat) (m : Mem ν Wire) : Mem ν Wire :=
  (addFull c out false a b none n m).1

def rippleSub (a b out : Ptr ν) (n : Nat) (m : Mem ν Wire) : Mem ν Wire :=
  (subFull c out false a b none n m).1

def mux (sel t f : Wire) : Wire := c.xorGate f (c.andGate sel (c.xorGate t f))

def ifThenElse (dest tsrc fsrc : Ptr ν) (size : Nat) (cond : Wire) (m : Mem ν Wire) : Mem ν Wire :=
  (sweep (fun t f (_ : Unit) => (c.xorGate (c.andGate cond (c.xorGate t f)) f, ())) dest tsrc fsrc
    size 0 () m).1

def equal (a b : Nat → Wire) (n : Nat) : Wire :=
  (List.range n).foldl (fun acc i => c.andGate acc (c.notGate (c.xorGate (a i) (b i))))
    (c.publicBit true)

inductive Local where
  | op1
  | op2
  | dest
  | diff
  | sum
  | tmp
  | rem
  | quot
  deriving DecidableEq

variable [Inhabited Wire]

def load (op1 op2 : Nat → Wire) : Mem Local Wire
  | .op1 => op1
  | .op2 => op2
  | _ => fun _ => default

def lessThan (a b : Nat → Wire) (n : Nat) : Wire :=
  (subFull c ⟨.diff, 0⟩ true ⟨.op1, 0⟩ ⟨.op2, 0⟩ none n (load a b)).2.getD default

def mulStep (n : Nat) (m : Mem Local Wire) (i : Nat) : Mem Local Wire :=
  let m := m.store ⟨.tmp, 0⟩ (n - i) fun k => c.andGate (m .op1 k) (m .op2 i)
  (addFull c ⟨.sum, i⟩ false ⟨.sum, i⟩ ⟨.tmp, 0⟩ none (n - i) m).1

def mulSum (op1 op2 : Nat → Wire) (n : Nat) : Mem Local Wire :=
  (List.range n).foldl (mulStep c n)
    ((load op1 op2).store ⟨.sum, 0⟩ n fun _ => c.publicBit false)

def mulFull (dest op1 op2 : Ptr ν) (n : Nat) (m : Mem ν Wire) : Mem ν Wire :=
  m.store dest n (mulSum c (m.get op1) (m.get op2) n .sum)

def divOverflow (op2 : Nat → Wire) (n : Nat) : Nat → Wire
  | 0 => c.publicBit false
  | i + 1 => orGate c (divOverflow op2 n i) (op2 (n - (i + 1)))

def divStep (n i : Nat) (m : Mem Local Wire) : Mem Local Wire :=
  let r := subFull c ⟨.tmp, 0⟩ true ⟨.rem, i⟩ ⟨.op2, 0⟩ none (n - i) m
  let b := orGate c (r.2.getD default) (divOverflow c (m .op2) n i)
  let m := ifThenElse c ⟨.rem, i⟩ ⟨.rem, i⟩ ⟨.tmp, 0⟩ (n - i) b r.1
  m.set ⟨.quot, 0⟩ i (c.notGate b)

def divLoop (n : Nat) : Nat → Mem Local Wire → Mem Local Wire
  | 0, m => m
  | i + 1, m => divLoop n i (divStep c n i m)

def divSteps (op1 op2 : Nat → Wire) (n : Nat) : Mem Local Wire :=
  divLoop c n n ((load op1 op2).store ⟨.rem, 0⟩ n op1)

def storeOut (out : Option (Ptr ν)) (n : Nat) (f : Nat → Wire) (m : Mem ν Wire) : Mem ν Wire :=
  match out with
  | some p => m.store p n f
  | none => m

def divFull (vquot vrem : Option (Ptr ν)) (op1 op2 : Ptr ν) (n : Nat) (m : Mem ν Wire) :
    Mem ν Wire :=
  let l := divSteps c (m.get op1) (m.get op2) n
  storeOut vquot n (l .quot) (storeOut vrem n (l .rem) m)

end Kernel

end EmpTool.Circuits
